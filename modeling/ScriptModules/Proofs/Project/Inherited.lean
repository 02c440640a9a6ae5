import ScriptModules.Proofs.Json.Keys
import ScriptModules.Proofs.Project.Chains

/-!
# What configurations inherit

The files that a configuration extends, and the configuration itself, stand in an order: each file
comes after everything that it extends. A setting of the configuration is what the last of these
files says that declares it at all; nothing is put together from several declarations but the
compiler options, and these key by key.
-/

namespace ScriptModules.Project

open Json (Value Members Distinct)

variable {t : Files.Tree} {path : Path}

/-- A configuration file that was read. -/
structure ConfigFile where
  path : Path
  json : Value

namespace ConfigFile

/-- A compiler option that a file declares. -/
def option (key : String) (file : ConfigFile) : Option Value :=
  ((file.json.get? "compilerOptions").bind Value.members?).bind (Members.get? key)

/-- The base directory that a file declares, starting from its own directory. -/
def baseUrl (file : ConfigFile) : Option Path :=
  ((file.option "baseUrl").bind Value.string?).map fun url =>
    ((dirOf file.path).join url).normalize

/-- The table of names that a file declares, and its directory. -/
def table (file : ConfigFile) : Option (Members × Path) :=
  ((file.option "paths").bind Value.members?).map fun table => (table, dirOf file.path)

/-- A list of files or patterns that a file declares, and its directory. -/
def names (key : String) (file : ConfigFile) : Option Declared :=
  ((file.json.get? key).bind textsOf).map fun names => ⟨names, dirOf file.path⟩

end ConfigFile

/-- What the last file says that declares a setting. -/
def lastDeclared {α : Type} (setting : ConfigFile → Option α) (order : List ConfigFile) :
    Option α := (order.filterMap setting).getLast?

/-- What files further up declare last wins over those below. -/
theorem lastDeclared_append {α : Type} (setting : ConfigFile → Option α)
    (below above : List ConfigFile) : lastDeclared setting (below ++ above) =
      (lastDeclared setting above).or (lastDeclared setting below) := by
  rw [lastDeclared, List.filterMap_append, List.getLast?_append]
  rfl

/-- One file declares last what it declares. -/
theorem lastDeclared_singleton {α : Type} (setting : ConfigFile → Option α) (file : ConfigFile) :
    lastDeclared setting [file] = setting file := by
  cases h : setting file <;> simp [lastDeclared, h]

/-- A layer with what the files of an order declare, where the last one wins. -/
structure Merges (order : List ConfigFile) (layer : Layer) : Prop where
  keys : (Members.keys layer.compilerOptions).Nodup
  options : ∀ key, Members.get? key layer.compilerOptions =
    lastDeclared (ConfigFile.option key) order
  baseUrl : layer.baseUrl = lastDeclared ConfigFile.baseUrl order
  table : layer.mappings = lastDeclared ConfigFile.table order
  files : layer.files = lastDeclared (ConfigFile.names "files") order
  included : layer.included = lastDeclared (ConfigFile.names "include") order
  excluded : layer.excluded = lastDeclared (ConfigFile.names "exclude") order

/-- No files make an empty layer. -/
theorem merges_nil : Merges [] {} where
  keys := List.nodup_nil
  options _ := rfl
  baseUrl := rfl
  table := rfl
  files := rfl
  included := rfl
  excluded := rfl

/-- A layer on top of another tells what the files of both declare. -/
theorem Merges.overlay {below above : List ConfigFile} {lower upper : Layer}
    (hbelow : Merges below lower) (habove : Merges above upper) :
    Merges (below ++ above) (lower.overlay upper) where
  keys := Members.nodup_keys_insertAll upper.compilerOptions hbelow.keys
  options key := by
    rw [lastDeclared_append, ← hbelow.options, ← habove.options]
    exact Members.get?_insertAll habove.keys lower.compilerOptions key
  baseUrl := by rw [lastDeclared_append, ← hbelow.baseUrl, ← habove.baseUrl]; rfl
  table := by rw [lastDeclared_append, ← hbelow.table, ← habove.table]; rfl
  files := by rw [lastDeclared_append, ← hbelow.files, ← habove.files]; rfl
  included := by rw [lastDeclared_append, ← hbelow.included, ← habove.included]; rfl
  excluded := by rw [lastDeclared_append, ← hbelow.excluded, ← habove.excluded]; rfl

/-- No key is there twice in a file that is read. -/
theorem distinct_of_readFile {json : Value} (h : readFile t path = .ok json) : Distinct json := by
  obtain ⟨content, -, hparse⟩ := of_readFile_eq_ok h
  exact Json.distinct_of_parse hparse

/-- What a file says on its own is what it declares. -/
theorem merges_ownLayer {json : Value} (h : Distinct json) :
    Merges [⟨path, json⟩] (ownLayer json path) := by
  have hoption (key : String) : Members.get? key (ownLayer json path).compilerOptions =
      ConfigFile.option key ⟨path, json⟩ := by
    unfold ownLayer ConfigFile.option
    cases (json.get? "compilerOptions").bind Value.members? <;> rfl
  have hkeys : (Members.keys (ownLayer json path).compilerOptions).Nodup := by
    show (Members.keys (((json.get? "compilerOptions").bind Value.members?).getD [])).Nodup
    cases hoptions : json.get? "compilerOptions" with
    | none => exact List.nodup_nil
    | some options =>
      cases options with
      | object ms => exact (h.get? hoptions).nodup_keys
      | _ => exact List.nodup_nil
  refine ⟨hkeys, fun key => ?_, ?_, ?_, ?_, ?_, ?_⟩ <;> rw [lastDeclared_singleton]
  · exact hoption key
  · rw [ConfigFile.baseUrl, ← hoption]; rfl
  · rw [ConfigFile.table, ← hoption]; rfl
  all_goals rfl

mutual

/-- The files of the tree that a file is the root of, depth first: the file comes after everything
that it extends, and a file that is extended twice comes twice. -/
inductive PostOrder (t : Files.Tree) : Path → List ConfigFile → Prop
  | file {path : Path} {json : Value} {below : List ConfigFile}
    (hread : readFile t path = .ok json) (hbelow : PostOrders t path (extendedBy json) below) :
    PostOrder t path (below ++ [⟨path, json⟩])

/-- The files of the trees that the names lead to which a file extends, from the first to the last
of them. -/
inductive PostOrders (t : Files.Tree) : Path → List String → List ConfigFile → Prop
  | nil {path : Path} : PostOrders t path [] []
  | cons {path base : Path} {extended : String} {rest : List String}
    {order below : List ConfigFile} (hfound : findExtended? t (dirOf path) extended = some base)
    (horder : PostOrder t base order) (hrest : PostOrders t path rest below) :
    PostOrders t path (extended :: rest) (order ++ below)

end

/-- The tree of a file has one order. -/
theorem PostOrder.unique {order order' : List ConfigFile} (h : PostOrder t path order)
    (h' : PostOrder t path order') : order = order' := by
  refine @PostOrder.rec t
    (fun path order _ => ∀ order', PostOrder t path order' → order = order')
    (fun path names below _ => ∀ below', PostOrders t path names below' → below = below')
    ?file ?nil ?cons path order h order' h'
  case file =>
    intro path json below hread _ ih _ h'
    cases h' with
    | file hread' hbelow' =>
      obtain rfl := Except.ok.inj (hread.symm.trans hread')
      rw [ih _ hbelow']
  case nil =>
    intro path _ h'
    cases h'
    rfl
  case cons =>
    intro path base extended rest order below hfound _ _ ih ihrest _ h'
    cases h' with
    | cons hfound' horder' hrest' =>
      obtain rfl := Option.some.inj (hfound.symm.trans hfound')
      rw [ih _ horder', ihrest _ hrest']

/-- Extended configurations that tell what the files of their trees declare do so together. -/
theorem exists_postOrders_of_loaded {load : Path → Except Fault (Layer × Value)}
    {names : List String} {bases : List (Path × Layer × Value)}
    (h : List.Forall₂ (Loaded t load path) names bases)
    (hload : ∀ extended ∈ names, ∀ base, Loaded t load path extended base →
      ∃ order, PostOrder t base.1 order ∧ Merges order base.2.1)
    {before : List ConfigFile} {layer : Layer} (hbefore : Merges before layer) :
    ∃ below, PostOrders t path names below ∧
      Merges (before ++ below) (bases.foldl (fun below base => below.overlay base.2.1) layer) := by
  induction h generalizing before layer with
  | nil => exact ⟨[], .nil, by rwa [List.append_nil]⟩
  | @cons extended base _ _ hloaded _ ih =>
    obtain ⟨order, horder, hmerges⟩ := hload extended List.mem_cons_self base hloaded
    obtain ⟨below, hbelow, hall⟩ := ih
      (fun other hother => hload other (List.mem_cons_of_mem _ hother)) (hbefore.overlay hmerges)
    exact ⟨order ++ below, .cons hloaded.1 horder hbelow, by rwa [← List.append_assoc]⟩

/-- What is loaded tells what the files of its tree declare. -/
theorem exists_postOrder_of_loadLayer {chain : List Path} {layer : Layer} {json : Value}
    (h : loadLayer t chain path = .ok (layer, json)) :
    ∃ order, PostOrder t path order ∧ Merges order layer := by
  induction hplace : (chain, path) using (calls_wellFounded t).induction
    generalizing chain path layer json with
  | _ place ih =>
    subst hplace
    have hvisit := visit_loadLayer t chain path
    rw [h] at hvisit
    cases hvisit with
    | loaded hnot hread hbases =>
      obtain ⟨below, hbelow, hmerges⟩ := exists_postOrders_of_loaded hbases
        (fun extended hmem base hbase =>
          ih (path :: chain, base.1) ⟨hnot, rfl, json, extended, hread, hmem, hbase.1⟩ hbase.2 rfl)
        merges_nil
      exact ⟨below ++ [⟨path, json⟩], .file hread hbelow,
        hmerges.overlay (merges_ownLayer (distinct_of_readFile hread))⟩

open Relation (ReflTransGen TransGen)

/-- Nothing that a file extends, directly or not, is spelled like the file. -/
def Acyclic (t : Files.Tree) (root : Path) : Prop :=
  ∀ path base, ReflTransGen (Extends t) root path → TransGen (Extends t) path base →
    path.same base = false

/-- The files on a way that leads from a root to a file. -/
def LeadsTo (t : Files.Tree) (root : Path) (chain : List Path) (path : Path) : Prop :=
  ReflTransGen (Extends t) root path ∧
    ∀ seen ∈ chain, ReflTransGen (Extends t) root seen ∧ TransGen (Extends t) seen path

/-- A file that leads on leads to what it extends. -/
theorem LeadsTo.next {root base : Path} {chain : List Path} (h : LeadsTo t root chain path)
    (hstep : Extends t path base) : LeadsTo t root (path :: chain) base :=
  ⟨h.1.tail hstep, List.forall_mem_cons.mpr ⟨⟨h.1, .single hstep⟩, fun seen hmem =>
    ⟨(h.2 seen hmem).1, (h.2 seen hmem).2.tail hstep⟩⟩⟩

/-- On a way without circles no file comes back. -/
theorem LeadsTo.not_onWay {root : Path} {chain : List Path} (h : LeadsTo t root chain path)
    (hacyclic : Acyclic t root) : ¬ OnWay chain path := by
  rintro ⟨seen, hmem, hsame⟩
  obtain ⟨hseen, hreturn⟩ := h.2 seen hmem
  rw [hacyclic seen path hseen hreturn] at hsame
  cases hsame

/-- Without a return, a file is loaded if all files of its tree can be read and found. -/
theorem exists_loadLayer_of_postOrder {root : Path} (hacyclic : Acyclic t root)
    {order : List ConfigFile} (h : PostOrder t path order) {chain : List Path}
    (hchain : LeadsTo t root chain path) : ∃ result, loadLayer t chain path = .ok result := by
  refine @PostOrder.rec t
    (fun path _ _ => ∀ chain, LeadsTo t root chain path →
      ∃ result, loadLayer t chain path = .ok result)
    (fun path names _ _ => ∀ chain, LeadsTo t root chain path →
      (∀ extended ∈ names, ∀ base, findExtended? t (dirOf path) extended = some base →
        Extends t path base) →
      ∃ bases, List.Forall₂ (Loaded t (loadLayer t (path :: chain)) path) names bases)
    ?file ?nil ?cons path order h chain hchain
  case file =>
    intro path json below hread _ ih chain hchain
    obtain ⟨bases, hbases⟩ := ih chain hchain fun extended hmem base hfound =>
      ⟨json, extended, hread, hmem, hfound⟩
    exact ⟨_, (Visit.loaded (hchain.not_onWay hacyclic) hread hbases).eq⟩
  case nil => exact fun _ _ _ => ⟨[], .nil⟩
  case cons =>
    intro path base extended rest order below hfound _ _ ih ihrest chain hchain hextends
    obtain ⟨result, hload⟩ := ih _ (hchain.next (hextends extended List.mem_cons_self base hfound))
    obtain ⟨bases, hbases⟩ := ihrest chain hchain fun other hother =>
      hextends other (List.mem_cons_of_mem _ hother)
    exact ⟨(base, result) :: bases, .cons ⟨hfound, hload⟩ hbases⟩

/-- The scope that the lists make which the files of an order declare last. -/
def scopeFrom (path : Path) (order : List ConfigFile) : Except Fault Scope :=
  scopeOf path (dirOf path)
    { files := lastDeclared (ConfigFile.names "files") order
      included := lastDeclared (ConfigFile.names "include") order
      excluded := lastDeclared (ConfigFile.names "exclude") order }

/-- A configuration whose settings are what the files of an order declare last. -/
structure Inherits (order : List ConfigFile) (config : Config) : Prop where
  options : ∀ key, Members.get? key config.compilerOptions =
    lastDeclared (ConfigFile.option key) order
  baseUrl : config.baseUrl = lastDeclared ConfigFile.baseUrl order
  mappings : config.mappings = match lastDeclared ConfigFile.table order with
    | some (table, dir) => mappingsOf table (config.baseUrl.getD dir)
    | none => []
  /-- Substitutions start from the base directory, or else from where the table stands. -/
  bases : ∀ mapping ∈ config.mappings, ∀ substitution ∈ mapping.substitutions, ∃ table dir,
    lastDeclared ConfigFile.table order = some (table, dir) ∧
      substitution.base = config.baseUrl.getD dir
  scope : scopeFrom config.path order = .ok config.scope

/-- All targets of a table start from its directory. -/
theorem base_of_mem_mappingsOf {table : Members} {base : Path} {mapping : Mapping}
    (h : mapping ∈ mappingsOf table base) {substitution : Substitution}
    (hmem : substitution ∈ mapping.substitutions) : substitution.base = base := by
  obtain ⟨⟨pattern, targets⟩, -, hmapping⟩ := List.mem_filterMap.mp h
  obtain ⟨texts, -, rfl⟩ := Option.map_eq_some_iff.mp hmapping
  obtain ⟨target, -, rfl⟩ := List.mem_map.mp hmem
  rfl

/-- The scope of a layer is made of the lists that its files declare last. -/
theorem Merges.scopeOf_eq {order : List ConfigFile} {layer : Layer} (h : Merges order layer)
    (path : Path) : scopeOf path (dirOf path) layer = scopeFrom path order := by
  rw [scopeFrom, ← h.files, ← h.included, ← h.excluded]
  rfl

/-- A configuration is put together from what is declared last. -/
theorem Merges.inherits {order : List ConfigFile} {layer : Layer} (h : Merges order layer)
    {json : Value} {config : Config} (hconfig : Config.assemble path layer json = .ok config) :
    Inherits order config := by
  obtain ⟨scope, hscope, hconfig⟩ := exists_of_bind_eq_ok hconfig
  obtain rfl := Except.ok.inj hconfig
  have hmappings : (match layer.mappings with
      | some (table, declaredIn) => mappingsOf table (layer.baseUrl.getD declaredIn)
      | none => []) = match lastDeclared ConfigFile.table order with
      | some (table, dir) => mappingsOf table (layer.baseUrl.getD dir)
      | none => [] := by rw [h.table]
  refine ⟨h.options, h.baseUrl, hmappings, fun mapping hmapping substitution hmem => ?_, ?_⟩
  · dsimp only at hmapping
    rw [h.table] at hmapping
    cases htable : lastDeclared ConfigFile.table order with
    | none =>
      rw [htable] at hmapping
      cases hmapping
    | some pair =>
      rw [htable] at hmapping
      exact ⟨pair.1, pair.2, rfl, base_of_mem_mappingsOf hmapping hmem⟩
  · rw [← h.scopeOf_eq]
    exact hscope

/-- A configuration has the scope of its layer. -/
theorem map_scope_assemble (path : Path) (layer : Layer) (json : Value) :
    (Config.assemble path layer json).map (·.scope) = scopeOf path (dirOf path) layer := by
  rw [Config.assemble]
  cases scopeOf path (dirOf path) layer <;> rfl

/-- A configuration that does not extend itself is loaded where its files can be read and found and
its patterns can be read. Its settings are what the files of its tree declare last, in the order in
which each file comes after everything that it extends: the compiler options key by key, and the
base directory, the table of names and the lists of files whole, each as it stands in one file. -/
theorem load_acyclic (hacyclic : Acyclic t path.normalize) :
    (∀ config, Config.load t path = .ok config → ∃ order, PostOrder t path.normalize order) ∧
    ∀ order, PostOrder t path.normalize order →
      (Config.load t path).map (·.scope) = scopeFrom path.normalize order ∧
      ∀ config, Config.load t path = .ok config → Inherits order config := by
  refine ⟨fun config h => ?_, fun order horder => ?_⟩
  · obtain ⟨⟨layer, json⟩, hlayer, -⟩ := exists_of_bind_eq_ok h
    obtain ⟨order, horder, -⟩ := exists_postOrder_of_loadLayer hlayer
    exact ⟨order, horder⟩
  · obtain ⟨⟨layer, json⟩, hlayer⟩ := exists_loadLayer_of_postOrder hacyclic horder
      ⟨.refl, List.forall_mem_nil _⟩
    obtain ⟨order', horder', hmerges⟩ := exists_postOrder_of_loadLayer hlayer
    obtain rfl := horder.unique horder'
    have hload : Config.load t path = Config.assemble path.normalize layer json := by
      rw [Config.load, hlayer]
      rfl
    rw [hload]
    exact ⟨(map_scope_assemble _ _ _).trans (hmerges.scopeOf_eq _), fun _ => hmerges.inherits⟩

/-- The configurations that a file extends, as far as they are found. -/
def basesOf (t : Files.Tree) (path : Path) : List Path :=
  (((readFile t path).toOption.map extendedBy).getD []).filterMap (findExtended? t (dirOf path))

/-- What a file extends is one of the configurations that are found for its names. -/
theorem Extends.mem_basesOf {base : Path} (h : Extends t path base) : base ∈ basesOf t path := by
  obtain ⟨json, extended, hread, hmem, hfound⟩ := h
  refine List.mem_filterMap.mpr ⟨extended, ?_, hfound⟩
  simpa [hread, Except.toOption] using hmem

/-- Where each of some files extends only files before it, none of them extends itself. -/
theorem acyclic_of_files {root : Path} (files : List Path) (hroot : root ∈ files)
    (h : ∀ path ∈ files, ∀ base ∈ basesOf t path, base ∈ files ∧
      (files.map Path.parts).idxOf base.parts < (files.map Path.parts).idxOf path.parts) :
    Acyclic t root := by
  intro path base hpath hbase
  have hmem : path ∈ files := by
    clear hbase
    induction hpath with
    | refl => exact hroot
    | tail _ hstep ih => exact (h _ ih _ hstep.mem_basesOf).1
  have hless : base ∈ files ∧
      (files.map Path.parts).idxOf base.parts < (files.map Path.parts).idxOf path.parts := by
    induction hbase with
    | single hstep => exact h _ hmem _ hstep.mem_basesOf
    | tail _ hstep ih =>
      obtain ⟨hbetween, hbefore⟩ := ih
      obtain ⟨hafter, hless⟩ := h _ hbetween _ hstep.mem_basesOf
      exact ⟨hafter, hless.trans hbefore⟩
  exact beq_eq_false_iff_ne.mpr fun hparts => Nat.lt_irrefl _ (hparts ▸ hless.2)

/-- What a file that is read says: the names that it extends, the text of one option, and its
lists. -/
def said (t : Files.Tree) (path : Path) :
    Option (List String × Option (Option String) × List Declared) :=
  (readFile t path).toOption.map fun json =>
    (extendedBy json, (ConfigFile.option "target" ⟨path, json⟩).map Value.string?,
      ["files", "include", "exclude"].filterMap fun key => ConfigFile.names key ⟨path, json⟩)

/-- A file that is read and declares no lists, after the trees of what it extends. -/
theorem exists_file_of_said {names : List String} {target : Option (Option String)}
    (h : said t path = some (names, target, [])) : ∃ file : ConfigFile,
      (∀ below, PostOrders t path names below → PostOrder t path (below ++ [file])) ∧
      (file.option "target").map Value.string? = target ∧
      ∀ key ∈ ["files", "include", "exclude"], file.names key = none := by
  cases hread : readFile t path with
  | error fault => simp [said, hread, Except.toOption] at h
  | ok json =>
    simp only [said, hread, Except.toOption, Option.map_some, Option.some.injEq,
      Prod.mk.injEq] at h
    obtain ⟨hnames, htarget, hlists⟩ := h
    exact ⟨⟨path, json⟩, fun below hbelow => .file hread (hnames ▸ hbelow), htarget,
      List.filterMap_eq_nil_iff.mp hlists⟩

/-- A file of a configuration. -/
def configFile (members : String) : Files.Entry :=
  .ofText ("\x7b" ++ members ++ "\x7d")

/-- Two configurations that extend the same one, and a third one that extends both. -/
def diamond : Files.Tree :=
  ⟨[(["base.json"], configFile "\x22compilerOptions\x22:\x7b\x22target\x22:\x22base\x22\x7d"),
    (["left.json"], configFile "\x22extends\x22:\x22./base.json\x22,
      \x22compilerOptions\x22:\x7b\x22target\x22:\x22left\x22\x7d"),
    (["right.json"], configFile "\x22extends\x22:\x22./base.json\x22"),
    (["root.json"], configFile "\x22extends\x22:[\x22./left.json\x22,\x22./right.json\x22]")]⟩

/-- A configuration that is extended once more wins over one that was extended before that. -/
theorem load_acyclic_diamond : Acyclic diamond ⟨"/root.json"⟩ ∧
    ∃ config, Config.load diamond ⟨"/root.json"⟩ = .ok config ∧
      Members.get? "target" config.compilerOptions = some (.string "base") := by
  have hacyclic : Acyclic diamond (Path.normalize ⟨"/root.json"⟩) :=
    acyclic_of_files [⟨"/base.json"⟩, ⟨"/left.json"⟩, ⟨"/right.json"⟩, ⟨"/root.json"⟩]
      (by decide) (by decide +kernel)
  have hnormal : Path.normalize ⟨"/root.json"⟩ = ⟨"/root.json"⟩ := by decide
  refine ⟨hnormal ▸ hacyclic, ?_⟩
  have hsaid : said diamond ⟨"/base.json"⟩ = some ([], some (some "base"), []) := by
    decide +kernel
  have hsaid' : said diamond ⟨"/left.json"⟩ = some (["./base.json"], some (some "left"), []) := by
    decide +kernel
  have hsaid'' : said diamond ⟨"/right.json"⟩ = some (["./base.json"], none, []) := by
    decide +kernel
  have hsaidRoot : said diamond ⟨"/root.json"⟩ =
      some (["./left.json", "./right.json"], none, []) := by decide +kernel
  obtain ⟨base, hbase, hbaseTarget, hbaseLists⟩ := exists_file_of_said hsaid
  obtain ⟨left, hleft, -, hleftLists⟩ := exists_file_of_said hsaid'
  obtain ⟨right, hright, hrightTarget, hrightLists⟩ := exists_file_of_said hsaid''
  obtain ⟨root, hroot, hrootTarget, hrootLists⟩ := exists_file_of_said hsaidRoot
  have hleftOrder := hleft _ (.cons (by decide +kernel) (hbase _ .nil) .nil)
  have hrightOrder := hright _ (.cons (by decide +kernel) (hbase _ .nil) .nil)
  have hrootOrder := hroot _
    (.cons (by decide +kernel) hleftOrder (.cons (by decide +kernel) hrightOrder .nil))
  have horder : PostOrder diamond ⟨"/root.json"⟩ ([base, left] ++ [base] ++ [right] ++ [root]) :=
    hrootOrder
  have hall := (load_acyclic hacyclic).2
  rw [hnormal] at hall
  obtain ⟨hscope, hinherits⟩ := hall _ horder
  have hlists : ∀ key ∈ ["files", "include", "exclude"], lastDeclared (ConfigFile.names key)
      ([base, left] ++ [base] ++ [right] ++ [root]) = none := fun key hkey => by
    simp [lastDeclared, hbaseLists key hkey, hleftLists key hkey, hrightLists key hkey,
      hrootLists key hkey]
  rw [scopeFrom, hlists "files" (by simp), hlists "include" (by simp),
    hlists "exclude" (by simp)] at hscope
  cases hload : Config.load diamond ⟨"/root.json"⟩ with
  | error fault =>
    rw [hload] at hscope
    have hsome : (scopeOf ⟨"/root.json"⟩ (dirOf ⟨"/root.json"⟩) {}).toOption.isSome = true := by
      decide +kernel
    rw [← hscope] at hsome
    cases hsome
  | ok config =>
    obtain ⟨value, hvalue, hstring⟩ := Option.map_eq_some_iff.mp hbaseTarget
    obtain rfl : value = .string "base" := by
      cases value with
      | string s => exact congrArg Value.string (Option.some.inj hstring)
      | _ => cases hstring
    refine ⟨config, rfl, ?_⟩
    rw [(hinherits config hload).options, lastDeclared_append, lastDeclared_append,
      lastDeclared_append, lastDeclared_singleton, lastDeclared_singleton, lastDeclared_singleton,
      Option.map_eq_none_iff.mp hrootTarget, Option.map_eq_none_iff.mp hrightTarget, hvalue]
    rfl

end ScriptModules.Project
