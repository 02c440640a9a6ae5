import ScriptModules.Proofs.Load.Registered

/-!
# What calls change

Loading a module and preparing its source announce the module and register at most one map, that of
its URL, and only when they succeed. Asking for a format or for an origin announces and registers
nothing. So over a series of queries the messages are those of its calls in order, and a URL whose
entry changed was the URL of a call that succeeded.
-/

namespace ScriptModules.Load

variable {σ α β : Type} {setup : Setup} {next : Loader σ}

/-- A step that neither registers a map nor sends a message. -/
structure Silent (m : Step σ α) : Prop where
  maps : KeepsMaps m
  sent : ∀ st, (m st).2.sent = st.sent

/-- A step that changes nothing but what is known of packages. -/
def AsksOnly (m : Step σ α) : Prop := ∀ st, ∃ packages, (m st).2 = { st with packages := packages }

/-- To return something changes nothing. -/
theorem AsksOnly.pure (a : α) : AsksOnly (Pure.pure a : Step σ α) := fun st => ⟨st.packages, rfl⟩

/-- To fail changes nothing. -/
theorem AsksOnly.throw (fault : Fault) : AsksOnly (MonadExcept.throw fault : Step σ α) :=
  fun st => ⟨st.packages, rfl⟩

/-- Steps that change nothing but what is known of packages do so one after the other. -/
theorem AsksOnly.bind {m : Step σ α} {f : α → Step σ β} (h : AsksOnly m)
    (hf : ∀ a, AsksOnly (f a)) : AsksOnly (m >>= f) := by
  intro st
  obtain ⟨packages, hm⟩ := h st
  rw [Run.run_bind]
  rcases hrun : m st with ⟨fault | a, between⟩ <;> rw [hrun] at hm
  · exact ⟨packages, hm⟩
  · obtain rfl : between = { st with packages := packages } := hm
    exact hf a _

/-- Asking for packages changes nothing but what is known of them. -/
theorem asksOnly_askPackages (ask : Package.Cache → Except Project.Fault α × Package.Cache) :
    AsksOnly (askPackages ask : Step σ α) := by
  intro st
  rw [run_askPackages]
  exact ⟨_, rfl⟩

/-- A step that changes nothing but what is known of packages is silent. -/
theorem AsksOnly.silent {m : Step σ α} (h : AsksOnly m) : Silent m where
  maps st := by
    obtain ⟨_, hm⟩ := h st
    rw [hm]
  sent st := by
    obtain ⟨_, hm⟩ := h st
    rw [hm]

/-- The loads of the host ask the packages at most. -/
theorem asksOnly_hostLoad (s : Session) (url : Url) (c : Context) :
    AsksOnly (Host.load s url c : Step σ Loaded) := by
  have hformat (path : Path) : AsksOnly (Host.formatOf s path : Step σ _) := by
    unfold Host.formatOf
    split
    case h_5 => exact (asksOnly_askPackages _).bind fun _ => .pure _
    all_goals exact .pure _
  have hfile (path : Path) : AsksOnly (Host.loadFile s path c : Step σ _) := by
    unfold Host.loadFile
    split
    · exact .throw _
    · split
      · exact (AsksOnly.pure _).bind fun _ => .pure _
      · exact (hformat _).bind fun _ => .pure _
  unfold Host.load
  split
  · exact .pure _
  · split
    · split
      · exact hfile _
      · exact .throw _
    · exact .throw _

/-- So does telling a format before a module is read. -/
theorem asksOnly_formatBeforeReading (s : Session) (url : Url) :
    AsksOnly (formatBeforeReading s url : Step σ ModuleFormat) := by
  unfold formatBeforeReading
  split
  · exact .pure _
  · split
    · exact .pure _
    · split
      · exact .pure _
      · split
        · exact asksOnly_askPackages _
        · exact .throw _

namespace Call

/-- The message that a call sends. -/
def notice (call : Call) : Notification := .dependency call.url.text

/-- Every call sends its own message and no other. -/
theorem sent_outcome (h : ∀ url c, Silent (next url c)) (setup : Setup) (call : Call)
    (st : State σ) : (call.outcome setup next st).2.sent = st.sent ++ [call.notice] := by
  cases call with
  | prepare source url format => rfl
  | load url c =>
    have hnext := (h url (hostContext url c)).sent (st.announced url)
    rw [outcome]
    rcases hrun : next url (hostContext url c) (st.announced url) with
      ⟨fault | loaded, after⟩ <;> rw [hrun] at hnext
    · exact hnext
    · exact hnext

/-- Registering maps sends no message. -/
theorem sent_register (url : Url) (map? : Option SourceMap) (st : State σ) :
    (st.register url map?).sent = st.sent := by
  cases map? <;> rfl

/-- A call announces its module once, whatever comes of it. -/
theorem sent_run (h : ∀ url c, Silent (next url c)) (setup : Setup) (call : Call) (st : State σ) :
    (call.run setup next st).2.sent = st.sent ++ [call.notice] := by
  rw [run_eq, ← sent_outcome h setup call st]
  unfold conclude
  split
  · rfl
  · exact sent_register _ _ _

/-- A call that fails registers nothing. -/
theorem maps_run_of_error (h : ∀ url c, Silent (next url c)) {call : Call} {st : State σ}
    {fault : Fault} (hfault : (call.run setup next st).1 = .error fault) :
    (call.run setup next st).2.maps = st.maps := by
  refine maps_run_of_none (fun url c => (h url c).maps) ?_
  rw [run_eq] at hfault
  unfold record?
  split
  · rfl
  · rename_i hok
    rw [hok] at hfault
    cases hfault

/-- No call changes the maps of other URLs. -/
theorem get?_run_of_ne (h : ∀ url c, Silent (next url c)) (call : Call) (st : State σ)
    {url : String} (hurl : url ≠ call.url.text) :
    (call.run setup next st).2.maps.get? url = st.maps.get? url := by
  have hmaps (url c) : KeepsMaps (next url c) := (h url c).maps
  cases hr : call.record? setup next st with
  | none => rw [maps_run_of_none hmaps hr]
  | some r =>
    have hrurl : r.url = call.url.text := by
      unfold record? at hr
      split at hr
      · cases hr
      · rw [← Option.some.inj hr]
    rw [get?_run hmaps hr, hrurl, if_neg hurl]

end Call

/-- What can be asked of a loader. -/
inductive Query where
  /-- Load a module, or prepare a source that was already read. -/
  | call (call : Call)
  /-- The format of a module before it is read. -/
  | format (url : Url)
  /-- The origin of a place in the script of a URL. -/
  | origin (url : Url) (line column : UInt32)

/-- What a loader replies. -/
inductive Reply where
  | returned (r : Returned)
  | format (format : ModuleFormat)
  | origin (origin? : Option Origin)

namespace Query

/-- Answer a query. -/
def run (setup : Setup) (next : Loader σ) : Query → Step σ Reply
  | call c => return .returned (← c.run setup next)
  | format url => return .format (← formatBeforeReading setup.session url)
  | origin url line column => return .origin ((← get).maps.origin? url.text line column)

/-- The URL of a query that loads a module or prepares its source. -/
def target? : Query → Option Url
  | call c => some c.url
  | format _ => none
  | origin _ _ _ => none

/-- The messages that a query sends. -/
def notices (q : Query) : List Notification :=
  (q.target?.map fun url => .dependency url.text).toList

/-- How a query may change the state of a loader, by the reply that it gets. -/
structure Frame (q : Query) (before : State σ) (result : Except Fault Reply) (after : State σ) :
    Prop where
  /-- A query that fails leaves the registry as it was. -/
  failed : ∀ fault, result = .error fault → after.maps = before.maps
  /-- The other URLs keep their maps. -/
  others : ∀ url, q.target?.map (·.text) ≠ some url → after.maps.get? url = before.maps.get? url
  /-- Asking for a format leaves everything but the packages as it was, -/
  format : ∀ url, q = .format url → ∃ packages, after = { before with packages := packages }
  /-- and asking for an origin leaves everything as it was. -/
  origin : ∀ url line column, q = .origin url line column → after = before
  /-- A load and a preparation are announced once, and nothing else is. -/
  sent : after.sent = before.sent ++ q.notices

/-- A query that is a call runs as the call. -/
theorem run_call (c : Call) (st : State σ) : (call c).run setup next st =
    ((c.run setup next st).1.map .returned, (c.run setup next st).2) := by
  rw [run, Run.run_bind]
  rcases c.run setup next st with ⟨_ | _, _⟩ <;> rfl

/-- Telling a format changes nothing but what is known of packages. -/
theorem asksOnly_format (setup : Setup) (next : Loader σ) (url : Url) :
    AsksOnly ((format url).run setup next) :=
  (asksOnly_formatBeforeReading _ _).bind fun _ => .pure _

/-- Every query keeps its frame. -/
theorem frame_run (h : ∀ url c, Silent (next url c)) (q : Query) (st : State σ) :
    q.Frame st (q.run setup next st).1 (q.run setup next st).2 := by
  cases q with
  | call c =>
    rw [run_call]
    constructor
    case failed => exact fun fault hfault => c.maps_run_of_error h (eq_error_of_map_eq_error hfault)
    case others => exact fun url hurl => c.get?_run_of_ne h st fun heq => hurl (heq ▸ rfl)
    case format => exact fun _ hq => by cases hq
    case origin => exact fun _ _ _ hq => by cases hq
    case sent => exact c.sent_run h setup st
  | format url =>
    have hasks := asksOnly_format setup next url
    constructor
    case failed => exact fun _ _ => hasks.silent.maps st
    case others => exact fun _ _ => by rw [hasks.silent.maps st]
    case format => exact fun _ _ => hasks st
    case origin => exact fun _ _ _ hq => by cases hq
    case sent => exact (hasks.silent.sent st).trans (List.append_nil _).symm
  | origin url line column =>
    constructor
    case failed => exact fun _ _ => rfl
    case others => exact fun _ _ => rfl
    case format => exact fun _ hq => by cases hq
    case origin => exact fun _ _ _ _ => rfl
    case sent => exact (List.append_nil _).symm

/-- The state after some queries. -/
def runAll (setup : Setup) (next : Loader σ) (queries : List Query) (st : State σ) : State σ :=
  queries.foldl (fun st q => (q.run setup next st).2) st

theorem runAll_cons (q : Query) (rest : List Query) (st : State σ) :
    runAll setup next (q :: rest) st = runAll setup next rest (q.run setup next st).2 := rfl

/-- The messages of a series are those of its queries in order. -/
theorem sent_runAll (h : ∀ url c, Silent (next url c)) (queries : List Query) (st : State σ) :
    (runAll setup next queries st).sent = st.sent ++ queries.flatMap notices := by
  induction queries generalizing st with
  | nil => exact (List.append_nil _).symm
  | cons q rest ih =>
    rw [runAll_cons, ih, (frame_run h q st).sent, List.flatMap_cons, List.append_assoc]

/-- Some query of a series, after those before it, loads or prepares the module of a URL and
succeeds. -/
def Reaches (setup : Setup) (next : Loader σ) (queries : List Query) (st : State σ)
    (url : String) : Prop :=
  ∃ earlier q later reply, queries = earlier ++ q :: later ∧ q.target?.map (·.text) = some url ∧
    (q.run setup next (runAll setup next earlier st)).1 = .ok reply

/-- A URL that no query reached has the map it had. -/
theorem get?_runAll_of_not_reaches (h : ∀ url c, Silent (next url c)) {queries : List Query}
    {st : State σ} {url : String} (hurl : ¬ Reaches setup next queries st url) :
    (runAll setup next queries st).maps.get? url = st.maps.get? url := by
  induction queries generalizing st with
  | nil => rfl
  | cons q rest ih =>
    have hrest : ¬ Reaches setup next rest (q.run setup next st).2 url := by
      rintro ⟨earlier, q', later, reply, rfl, htarget, hreply⟩
      exact hurl ⟨q :: earlier, q', later, reply, rfl, htarget, hreply⟩
    rw [runAll_cons, ih hrest]
    cases hresult : (q.run setup next st).1 with
    | error fault => rw [(frame_run h q st).failed fault hresult]
    | ok reply =>
      exact (frame_run h q st).others url fun htarget =>
        hurl ⟨[], q, rest, reply, rfl, htarget, hresult⟩

/-- In every series of queries, each keeps its frame, the messages are those of its loads and
preparations in order, and only URLs that were reached have another map than before. -/
theorem runAll_frames (h : ∀ url c, Silent (next url c)) (queries : List Query) (st : State σ) :
    (∀ earlier q later, queries = earlier ++ q :: later →
      let before := runAll setup next earlier st
      q.Frame before (q.run setup next before).1 (q.run setup next before).2) ∧
    (runAll setup next queries st).sent = st.sent ++ queries.flatMap notices ∧
    ∀ url, ¬ Reaches setup next queries st url →
      (runAll setup next queries st).maps.get? url = st.maps.get? url :=
  ⟨fun _ q _ _ => frame_run h q _, sent_runAll h queries st,
    fun _ hurl => get?_runAll_of_not_reaches h hurl⟩

/-- A load that fails, a preparation that registers a map, and two queries about it. -/
def aboutModule : List Query :=
  let url := rootFile "a.mjs"
  [.call (.load url {}), .call (.prepare "import(a)" url .module), .format url, .origin url 0 0]

/-- Failed queries, preparations and questions in one series each change the state as they may. -/
theorem runAll_frames_aboutModule :
    let setup : Setup := { session := rootSession }
    let next : Loader Unit := Host.load rootSession
    let st : State Unit := { host := () }
    (∀ url c, Silent (next url c)) ∧
    (∀ earlier q later, aboutModule = earlier ++ q :: later →
      let before := runAll setup next earlier st
      q.Frame before (q.run setup next before).1 (q.run setup next before).2) ∧
    (runAll setup next aboutModule st).sent =
      [.dependency (rootFile "a.mjs").text, .dependency (rootFile "a.mjs").text] ∧
    ∀ url, ¬ Reaches setup next aboutModule st url →
      (runAll setup next aboutModule st).maps.get? url = st.maps.get? url := by
  have hsilent (url c) : Silent (Host.load rootSession url c : Step Unit Loaded) :=
    (asksOnly_hostLoad _ _ _).silent
  exact ⟨hsilent, runAll_frames hsilent aboutModule { host := () }⟩

end Query

end ScriptModules.Load
