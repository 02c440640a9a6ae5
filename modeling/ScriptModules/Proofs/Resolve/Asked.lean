import ScriptModules.Proofs.Resolve.Agreement
import ScriptModules.Proofs.Resolve.Calls
import ScriptModules.Proofs.Resolve.Depth

/-!
# What a search asks its host

An attempt asks for nothing but its own name, and for no directory. So what is known of an attempt,
and stays known of everything that it goes on to, is known of every call. For a directory that was
asked for, these are the calls for its index.
-/

namespace ScriptModules.Resolve.Search

open Specifier (hasPathFront isDirectory isPath withoutNodePrefix)

variable {σ : Type} {s : Session} {next : Resolver σ} {c : Context} {specifier : String}
  {fallback : Fallback} {P : Call → Prop}

/-- A step that adds only calls with a property to the record. -/
def AddsOnly (P : Call → Prop) (m : Step (σ × List Call) Target) : Prop :=
  ∀ st, ∃ calls, (m st).2.host.2 = st.host.2 ++ calls ∧ ∀ call ∈ calls, P call

/-- A step that leaves its host alone adds no calls. -/
theorem addsOnly_of_unchanged {m : Step (σ × List Call) Target}
    (h : ∀ st, (m st).2.host = st.host) : AddsOnly P m := by
  intro st
  refine ⟨[], ?_, by simp⟩
  rw [h, List.append_nil]

/-- A settled step adds what the step and both ways on add. -/
theorem AddsOnly.settle {m : Step (σ × List Call) Target}
    {after : Target → Step (σ × List Call) Target} {failed : Fault → Step (σ × List Call) Target}
    (hm : AddsOnly P m) (hafter : ∀ t, AddsOnly P (after t))
    (hfailed : ∀ f, AddsOnly P (failed f)) :
    AddsOnly P (ScriptModules.settle m after failed) := by
  intro st
  obtain ⟨first, hfirst, hP⟩ := hm st
  have hmore : ∃ more, (ScriptModules.settle m after failed st).2.host.2 =
      (m st).2.host.2 ++ more ∧ ∀ call ∈ more, P call := by
    unfold ScriptModules.settle
    rcases m st with ⟨f | t, between⟩
    · exact hfailed f between
    · exact hafter t between
  obtain ⟨more, hmore, hP'⟩ := hmore
  refine ⟨first ++ more, ?_, fun call hcall => ?_⟩
  · rw [hmore, hfirst, List.append_assoc]
  · exact (List.mem_append.mp hcall).elim (hP call) (hP' call)

/-- A host with a record adds the call that it is asked. -/
theorem addsOnly_recorded
    (h : ∀ st, P ⟨specifier, (next specifier c st).1, (next specifier c st).2.packages⟩) :
    AddsOnly P (recorded next specifier c) :=
  fun st => ⟨[_], rfl, by simpa using h (forget st)⟩

/-- Everything that a search is made of adds only calls with the property if the host does. -/
theorem simulation_addsOnly (s : Session) {host : Resolver (σ × List Call)}
    (h : ∀ specifier, AddsOnly P (host specifier c)) :
    Simulation s s host host c fun m (_ : Step (σ × List Call) Target) => AddsOnly P m where
  fails _ _ := addsOnly_of_unchanged fun _ => rfl
  catches := by
    intro m _ handle _ hm hhandle
    rw [tryCatch_eq_settle]
    apply hm.settle
    · exact fun t => addsOnly_of_unchanged fun _ => rfl
    · exact hhandle.rel fun f => addsOnly_of_unchanged fun _ => rfl
  asks := by
    intro specifier failed _ hfailed
    rw [askOr_eq_settle]
    apply (h specifier).settle
    · exact fun t => addsOnly_of_unchanged fun st => by rw [run_decideFormat]
    · exact hfailed.rel fun f => addsOnly_of_unchanged fun _ => rfl

/-- What a search over a host with a record adds is what is observed of it. -/
theorem AddsOnly.of_mem_observe
    (h : AddsOnly P (resolveWithin s (recorded next) c depthLimit specifier .allowed))
    {st : State σ} {call : Call} (hcall : call ∈ (observe s next specifier c st).2) : P call := by
  obtain ⟨calls, hcalls, hP⟩ := h ⟨st.packages, (st.host, [])⟩
  rw [List.nil_append] at hcalls
  simp only [observe, run_resolve, hcalls] at hcall
  exact hP call hcall

/-- The calls that are observed were answered by the host. -/
theorem exists_answer_of_mem_observe {st : State σ} {call : Call}
    (h : call ∈ (observe s next specifier c st).2) :
    ∃ before after, next call.specifier c before = (call.answer, after) := by
  let answered (call : Call) : Prop :=
    ∃ before after, next call.specifier c before = (call.answer, after)
  have hhost (specifier : String) : AddsOnly answered (recorded next specifier c) :=
    addsOnly_recorded fun st => ⟨st, _, rfl⟩
  exact ((simulation_addsOnly s hhost).resolveWithin depthLimit specifier .allowed).of_mem_observe h

/-- What is kept by everything that an attempt goes on to. -/
structure Kept (s : Session) (c : Context) (I : String → Fallback → Prop) : Prop where
  mapped : ∀ {specifier fallback u}, I specifier fallback →
    u ∈ mappedUrls s (withoutNodePrefix s.capabilities specifier) c → I u .allowed
  derived : ∀ {specifier fallback form}, I specifier fallback →
    Derived c (withoutNodePrefix s.capabilities specifier) fallback form → I form .nested

/-- An attempt asks its host for nothing but the specifier itself, and for no directory. -/
theorem attempt_congr_host {next next' : Resolver σ} (again : Again σ) (fallback : Fallback)
    (h : isDirectory (withoutNodePrefix s.capabilities specifier) = false →
      next (withoutNodePrefix s.capabilities specifier) c =
        next' (withoutNodePrefix s.capabilities specifier) c) :
    attempt s next again specifier c fallback = attempt s next' again specifier c fallback := by
  rw [attempt_eq, attempt_eq]
  dsimp only
  split
  · rfl
  · rename_i hd
    simp only [searchUnmapped, askOr, h (by simpa using hd)]

/-- Where attempts keep a property, only names of attempts that have it are asked for. -/
theorem addsOnly_of_kept {I : String → Fallback → Prop} (hkept : Kept s c I)
    (hasks : ∀ specifier fallback, I specifier fallback →
      isDirectory (withoutNodePrefix s.capabilities specifier) = false →
      AddsOnly P (recorded next (withoutNodePrefix s.capabilities specifier) c))
    (hI : I specifier fallback) (depth : Nat) :
    AddsOnly P (resolveWithin s (recorded next) c depth specifier fallback) := by
  induction depth generalizing specifier fallback with
  | zero => exact addsOnly_of_unchanged fun _ => rfl
  | succ depth ih =>
    -- For this attempt, a host that answers nothing else does the same.
    let name := withoutNodePrefix s.capabilities specifier
    let host : Resolver (σ × List Call) := fun x c =>
      if x = name ∧ isDirectory name = false then recorded next x c else throw (.missing x c)
    have hhost : ∀ x, AddsOnly P (host x c) := by
      intro x
      by_cases hx : x = name ∧ isDirectory name = false
      · obtain ⟨rfl, hd⟩ := hx
        simp only [host, hd, and_self, if_true]
        exact hasks specifier fallback hI hd
      · simp only [host, if_neg hx]
        exact addsOnly_of_unchanged fun _ => rfl
    have hsame : resolveWithin s (recorded next) c (depth + 1) specifier fallback =
        attempt s host (resolveWithin s (recorded next) c depth) specifier c fallback := by
      refine attempt_congr_host _ _ fun hd => ?_
      simp only [host, name, hd, and_self, if_true]
    rw [hsame]
    apply (simulation_addsOnly s hhost).attempt_alone
    · exact fun u hu => ih (hkept.mapped hI hu)
    · exact fun form hform => ih (hkept.derived hI hform)

/-- Where attempts keep a property that tells something of their names, all calls are for such
names. -/
theorem Kept.of_mem_observe {I : String → Fallback → Prop} (hkept : Kept s c I)
    {Q : String → Prop}
    (hQ : ∀ specifier fallback, I specifier fallback →
      isDirectory (withoutNodePrefix s.capabilities specifier) = false →
      Q (withoutNodePrefix s.capabilities specifier))
    (hI : I specifier .allowed) {st : State σ} {call : Call}
    (h : call ∈ (observe s next specifier c st).2) : Q call.specifier := by
  have hadds : AddsOnly (fun call => Q call.specifier)
      (resolveWithin s (recorded next) c depthLimit specifier .allowed) :=
    addsOnly_of_kept hkept (fun x fallback hx hd => addsOnly_recorded fun _ => hQ x fallback hx hd)
      hI depthLimit
  exact hadds.of_mem_observe h

/-- From a path, attempts go on to paths. -/
theorem kept_paths (s : Session) (c : Context) : Kept s c fun x _ => hasPathFront x = true where
  mapped _ hu := (hasPathFront_of_mem_mappedUrls hu).2
  derived hx hform := by
    rw [Specifier.withoutNodePrefix_of_hasPathFront hx] at hform
    exact hform.hasPathFront hx

/-- A search for a path asks for paths only. -/
theorem hasPathFront_of_mem_observe (hp : hasPathFront specifier = true) {st : State σ}
    {call : Call} (h : call ∈ (observe s next specifier c st).2) :
    hasPathFront call.specifier = true := by
  refine (kept_paths s c).of_mem_observe (Q := (hasPathFront · = true)) (fun x _ hx _ => ?_) hp h
  rwa [Specifier.withoutNodePrefix_of_hasPathFront hx]

/-- The index of a directory with an extension. -/
def IsIndexOf (directory x : String) : Prop := ∃ e ∈ extensions, x = directory ++ "index" ++ e

/-- The sources of an index are extensions of the index. -/
theorem IsIndexOf.source {directory x form : String}
    (hplain : '?' ∉ directory.toList ∧ '#' ∉ directory.toList) (h : IsIndexOf directory x)
    (hform : form ∈ prioritySources x c) : IsIndexOf directory form := by
  obtain ⟨e, he, rfl⟩ := h
  have hindex : ∀ d ∈ (directory ++ "index").toList, Specifier.inPath d = true := by
    intro d hd
    rw [String.toList_append, List.mem_append] at hd
    rw [Specifier.inPath, Bool.and_eq_true, bne_iff_ne, bne_iff_ne]
    rcases hd with hd | hd
    · exact ⟨ne_of_mem_of_not_mem hd hplain.1, ne_of_mem_of_not_mem hd hplain.2⟩
    · constructor <;> rintro rfl <;> exact absurd hd (by decide)
  have hsources : Specifier.sourceAlternates (directory ++ "index" ++ e) =
      ((Specifier.sourceExtensions.lookup e).getD []).map (directory ++ "index" ++ ·) :=
    Specifier.sourceAlternates_append_extension hindex (by simp) (by simp) he
  have hmem := mem_sourceAlternates_of_mem hform
  rw [hsources] at hmem
  obtain ⟨source, hsource, rfl⟩ := List.mem_map.mp hmem
  have hlisted : ∀ e ∈ extensions, ∀ source ∈ (Specifier.sourceExtensions.lookup e).getD [],
      source ∈ extensions := by
    decide
  exact ⟨source, hlisted e he source hsource, rfl⟩

/-- From a path that asks for a directory, attempts go on to its index and nothing else. -/
theorem kept_index (hp : hasPathFront specifier = true) (hd : isDirectory specifier = true)
    (hplain : '?' ∉ specifier.toList ∧ '#' ∉ specifier.toList) :
    Kept s c fun x fallback => x = specifier ∨ fallback = .nested ∧ IsIndexOf specifier x := by
  have hfront {x : String} {fallback : Fallback}
      (hx : x = specifier ∨ fallback = .nested ∧ IsIndexOf specifier x) :
      hasPathFront x = true := by
    rcases hx with rfl | ⟨-, e, -, rfl⟩
    · exact hp
    · exact Specifier.hasPathFront_append (Specifier.hasPathFront_append hp _) _
  constructor
  · intro x fallback u hx hu
    rw [Specifier.withoutNodePrefix_of_hasPathFront (hfront hx),
      mappedUrls_eq_nil (hfront hx)] at hu
    cases hu
  · intro x fallback form hx hform
    rw [Specifier.withoutNodePrefix_of_hasPathFront (hfront hx)] at hform
    refine Or.inr ⟨rfl, ?_⟩
    rcases hx with rfl | ⟨rfl, hindex⟩
    · cases hform with
      | index _ he => exact ⟨_, he, rfl⟩
      | source hno => simp [hd] at hno
      | indexBelow hno => simp [hd] at hno
      | extended hno => simp [hd] at hno
    · have hfile : isDirectory x = false := by
        obtain ⟨e, he, rfl⟩ := hindex
        exact isDirectory_append_extension he
      cases hform with
      | source _ hform => exact hindex.source hplain hform
      | index hyes => simp [hfile] at hyes
      | indexBelow _ hallowed => cases hallowed
      | extended _ hallowed => cases hallowed

/-- The index of a directory is neither the directory, with or without its slash, nor a file next to
it. -/
theorem IsIndexOf.ne {directory x : String} (h : IsIndexOf directory x) :
    x ≠ directory ∧ ∀ name, name ++ "/" = directory → x ≠ name ∧
      ∀ e : String, e.toList.head? = some '.' → x ≠ directory ++ e ∧ x ≠ name ++ e := by
  obtain ⟨e', -, rfl⟩ := h
  have hlonger {name back : String} (hback : back ≠ "") : name ++ back ≠ name := by
    intro heq
    have hlength := congrArg String.length heq
    rw [String.length_append] at hlength
    have hnone : back.length = 0 := by omega
    exact hback (String.length_eq_zero_iff.mp hnone)
  have hother (front : String) {d : Char} (hd : d ≠ '.') {back : List Char} {e : String}
      (he : e.toList.head? = some '.') : front.toList ++ d :: back ≠ front.toList ++ e.toList := by
    intro heq
    rw [← List.append_cancel_left heq] at he
    exact hd (Option.some.inj he)
  refine ⟨?_, fun name hname => ⟨?_, fun e he => ⟨?_, ?_⟩⟩⟩
  · rw [String.append_assoc]
    exact hlonger (by simp)
  · rw [← hname, String.append_assoc, String.append_assoc]
    exact hlonger (by simp)
  · rw [ne_eq, ← String.toList_inj]
    simpa using hother directory (d := 'i') (by decide) he
  · subst hname
    rw [ne_eq, ← String.toList_inj]
    simpa using hother name (d := '/') (by decide) he

/-- For a path that asks for a directory, the host is asked for files of its index and for nothing
else: not for the path, with or without its slash, and not for a file next to the directory. -/
theorem directory_asks_for_index (hpath : isPath specifier = true)
    (hd : isDirectory specifier = true) (hplain : '?' ∉ specifier.toList ∧ '#' ∉ specifier.toList)
    (s : Session) (next : Resolver σ) (c : Context) (st : State σ) :
    ∀ call ∈ (observe s next specifier c st).2,
      (∃ e ∈ extensions, call.specifier = specifier ++ "index" ++ e) ∧
        call.specifier ≠ specifier ∧ ∀ name, name ++ "/" = specifier → call.specifier ≠ name ∧
          ∀ e : String, e.toList.head? = some '.' →
            call.specifier ≠ specifier ++ e ∧ call.specifier ≠ name ++ e := by
  have hp : hasPathFront specifier = true := by
    apply Specifier.hasPathFront_of_isPath hpath <;> rintro rfl <;> revert hd <;> decide +kernel
  intro call hcall
  have hindex : IsIndexOf specifier call.specifier := by
    apply (kept_index hp hd hplain).of_mem_observe ?_ (Or.inl rfl) hcall
    intro x fallback hx hno
    rcases hx with rfl | ⟨-, hindex⟩
    · rw [Specifier.withoutNodePrefix_of_hasPathFront hp, hd] at hno
      cases hno
    · obtain ⟨e, he, rfl⟩ := hindex
      have hfront := Specifier.hasPathFront_append (Specifier.hasPathFront_append hp "index") e
      rw [Specifier.withoutNodePrefix_of_hasPathFront hfront]
      exact ⟨e, he, rfl⟩
  exact ⟨hindex, hindex.ne⟩

/-- A host that takes the index itself for a directory is asked for the sources of the index, too,
and for nothing else. -/
theorem directory_asks_for_index_unsupported :
    let s := Session.withoutProjects {} { cwd := ⟨"/w"⟩ }
    let next : Resolver Unit := fun specifier c =>
      throw (.unsupportedDirectory specifier specifier c.parent)
    let c : Context := { parent := Url.ofPath? ⟨"/w/main.ts"⟩ }
    let calls := (observe s next "./a/" c ⟨{}, ()⟩).2
    (isPath "./a/" = true ∧ isDirectory "./a/" = true ∧
      '?' ∉ "./a/".toList ∧ '#' ∉ "./a/".toList) ∧
    calls.map (·.specifier) = ["./a/index.ts", "./a/index.json", "./a/index.ts", "./a/index.tsx",
      "./a/index.tsx"] ∧
    ∀ call ∈ calls, (∃ e ∈ extensions, call.specifier = "./a/" ++ "index" ++ e) ∧
      call.specifier ≠ "./a/" ∧ ∀ name, name ++ "/" = "./a/" → call.specifier ≠ name ∧
        ∀ e : String, e.toList.head? = some '.' →
          call.specifier ≠ "./a/" ++ e ∧ call.specifier ≠ name ++ e := by
  intro s next c calls
  have hpath : isPath "./a/" = true := by decide +kernel
  have hd : isDirectory "./a/" = true := by decide +kernel
  have hplain : '?' ∉ "./a/".toList ∧ '#' ∉ "./a/".toList := by decide
  exact ⟨⟨hpath, hd, hplain⟩, by decide +kernel,
    directory_asks_for_index hpath hd hplain s next c ⟨{}, ()⟩⟩

end ScriptModules.Resolve.Search
