import SecLsmManager.Client.Display
import SecLsmManager.Context.Settings
import Mathlib.Data.Nat.Find
import Mathlib.Data.List.Forall2
import Mathlib.Data.List.Nodup

/-!
# Displays are replayed

The strings of a display are the queries that set the properties. Each property of a session
passed the checks of its operation and is left in the form that these checks leave alone
(`Context.Admitted`), so that a session over the same file system accepts the queries again
(`display_replays`).
-/

namespace SecLsmManager

open Lib

variable {σ : Type*} {stat : CStr → Bool → StatAnswer}

/-! ## Admitted contexts -/

/-- A context whose properties were admitted by a file system. -/
structure Context.Admitted (stat : CStr → Bool → StatAnswer) (context : Context) : Prop where
  inv : context.Inv
  paths : ∀ p ∈ context.pathSet, PathAdmitted stat p.path
  permissions : ∀ p ∈ context.permissionSet, isUtf8 p = true
  plugs : ∀ p ∈ context.plugset, PlugAdmitted stat p
  idChars : ∀ i < SEC_LSM_MANAGER_MAX_SIZE_ID, context.id i ≠ 0 → isIdChar (context.id i) = true
  idMin : context.id 0 ≠ 0 → context.id 1 ≠ 0

/-- A new context holds nothing. -/
theorem contextCreate_admitted (mem : Nat → UInt8) : (contextCreate mem).Admitted stat where
  inv := .of_empty _ _
  paths := nofun
  permissions := nofun
  plugs := nofun
  idChars := fun _ hi hne => absurd (if_pos hi) hne
  idMin := fun hne => absurd rfl hne

/-- The error flag does not matter. -/
theorem Context.Admitted.raiseError {context : Context} (h : context.Admitted stat) :
    (contextRaiseError context).Admitted stat :=
  { h with inv := h.inv.congr _ _ }

/-- A context that is cleared holds nothing. -/
theorem Context.Admitted.clear {context : Context} (h : context.Admitted stat) :
    (contextClear context).Admitted stat where
  inv := .of_empty _ _
  paths := nofun
  permissions := nofun
  plugs := nofun
  idChars := IdChars.cleared h.idChars
  idMin := fun hne => absurd rfl hne

/-- An id that is set is valid. -/
theorem Context.Admitted.setId {context : Context} (h : context.Admitted stat) {id : CStr}
    (hid : ValidId id) : Context.Admitted stat { context with
      id := writeCells context.id 0 id.bytes } where
  inv := h.inv.congr _ _
  paths := h.paths
  permissions := h.permissions
  plugs := h.plugs
  idChars := IdChars.copied h.idChars hid
  idMin := fun _ => by
    have hlt : 1 < id.bytes.length := hid.min_le
    have hbyte := writeCells_getElem context.id 0 id.bytes hlt
    simp only
    rw [hbyte]
    intro h0
    exact id.nonul (h0 ▸ List.getElem_mem hlt)

/-- The texts of a served operation passed `is_utf8`, and its answers are those of the session. -/
theorem ContextOp.Served.addPath {answers : Nat → Answers} {a : Answers} {path type : CStr}
    (h : (ContextOp.addPath a path type).Served answers) :
    isUtf8 path = true ∧ ∃ n, a = answers n := by
  cases h with
  | @query query n _ hu hop =>
    cases query with
    | path p t =>
      cases hop
      simp only [Query.fields, checkUtf8, List.all_cons, Bool.and_eq_true] at hu
      exact ⟨hu.2.1, n, rfl⟩
    | _ => cases hop

/-- The permission of a query is UTF-8 text. -/
theorem ContextOp.Served.addPermission {answers : Nat → Answers} {a : Answers} {permission : CStr}
    (h : (ContextOp.addPermission a permission).Served answers) : isUtf8 permission = true := by
  cases h with
  | @query query n _ hu hop =>
    cases query with
    | permission p =>
      cases hop
      simp only [Query.fields, checkUtf8, List.all_cons, Bool.and_eq_true] at hu
      exact hu.2.1
    | _ => cases hop

/-- So are the three texts of a plug. -/
theorem ContextOp.Served.addPlug {answers : Nat → Answers} {a : Answers}
    {expdir impid impdir : CStr} (h : (ContextOp.addPlug a expdir impid impdir).Served answers) :
    (isUtf8 expdir = true ∧ isUtf8 impid = true ∧ isUtf8 impdir = true) ∧
      ∃ n, a = answers n := by
  cases h with
  | @query query n _ hu hop =>
    cases query with
    | plug e i d =>
      cases hop
      simp only [Query.fields, checkUtf8, List.all_cons, Bool.and_eq_true] at hu
      exact ⟨⟨hu.2.1, hu.2.2.1, hu.2.2.2.1⟩, n, rfl⟩
    | _ => cases hop

/-- **Each operation of a session** keeps the context admitted. -/
theorem Context.Admitted.step {context : Context} (h : context.Admitted stat) {op : ContextOp}
    {answers : Nat → Answers} (hop : op.Served answers) (hstat : ∀ n, (answers n).stat = stat) :
    (context.step op).2.Admitted stat := by
  rcases context.step_cases op with ⟨rc, -, heq⟩ | ⟨context', heq, ha⟩
  · rw [heq]
    exact h
  have hinv := h.inv.accepts ha
  have hrc : (context.step op).1 ≥ 0 := heq ▸ Int.le_refl 0
  rw [heq]
  cases ha with
  | setId _ _ hid => exact h.setId hid
  | @addPath a path type =>
    obtain ⟨hu, n, rfl⟩ := hop.addPath
    have hpath := contextAddPath_admits hu hrc
    rw [hstat n] at hpath
    refine { h with inv := hinv, paths := fun p hp => ?_ }
    obtain hp | hp := List.mem_append.1 hp
    · exact h.paths p hp
    · rw [List.mem_singleton.1 hp]
      exact hpath
  | @addPermission a permission =>
    refine { h with inv := hinv, permissions := fun p hp => ?_ }
    obtain hp | hp := List.mem_append.1 hp
    · exact h.permissions p hp
    · rw [List.mem_singleton.1 hp]
      exact hop.addPermission
  | @addPlug a expdir impid impdir =>
    obtain ⟨⟨he, hi, hd⟩, n, rfl⟩ := hop.addPlug
    have hplug := contextAddPlug_admits he hi hd hrc
    rw [hstat n] at hplug
    refine { h with inv := hinv, plugs := fun p hp => ?_ }
    obtain rfl | hp := List.mem_cons.1 hp
    · exact hplug
    · exact h.plugs p hp
  | raiseError => exact h.raiseError
  | clear => exact h.clear

/-- The context of a session is admitted by its file system. -/
theorem Context.Admitted.run {context : Context} (h : context.Admitted stat) {ops : List ContextOp}
    {answers : Nat → Answers} (hops : ∀ op ∈ ops, op.Served answers)
    (hstat : ∀ n, (answers n).stat = stat) : (context.run ops).Admitted stat := by
  induction ops generalizing context with
  | nil => exact h
  | cons op ops ih =>
    obtain ⟨hop, hops⟩ := List.forall_mem_cons.1 hops
    exact ih (h.step hop hstat) hops

/-- The id of an admitted context is valid when it ends in its array. -/
theorem Context.Admitted.validId {context : Context} (h : context.Admitted stat)
    (hterm : context.IdTerminated) (h0 : context.id 0 ≠ 0) : ValidId context.idString := by
  classical
  let n := Nat.find hterm
  obtain ⟨hlt, hn⟩ : n < Context.idSize ∧ context.id n = 0 := Nat.find_spec hterm
  have hmin : ∀ i < n, context.id i ≠ 0 :=
    fun i hi hz => Nat.find_min hterm hi ⟨hi.trans hlt, hz⟩
  have hnonul : 0 ∉ cells context.id 0 n := by
    intro hm
    obtain ⟨i, hi, hz⟩ := List.getElem_of_mem hm
    rw [cells_length] at hi
    rw [getElem_cells, Nat.zero_add] at hz
    exact hmin i hi hz
  have hbytes : context.idString.bytes = cells context.id 0 n :=
    CStr.bytes_ofBytes_cells hlt hn hnonul
  have hlen : context.idString.length = n := by rw [CStr.length, hbytes, cells_length]
  have hmax : n ≤ SEC_LSM_MANAGER_MAX_SIZE_ID := Nat.le_of_lt_succ hlt
  refine ⟨?_, hlen ▸ hmax, fun car hcar => ?_⟩
  · rw [hlen]
    have hne0 : n ≠ 0 := fun hz => h0 (hz ▸ hn)
    have hne1 : n ≠ 1 := fun hz => h.idMin h0 (hz ▸ hn)
    simp only [SEC_LSM_MANAGER_MIN_SIZE_ID]
    omega
  · rw [hbytes] at hcar
    obtain ⟨i, hi, rfl⟩ := List.getElem_of_mem hcar
    rw [cells_length] at hi
    rw [getElem_cells, Nat.zero_add]
    exact h.idChars i (hi.trans_le hmax) (hmin i hi)

/-! ## Queries of a context -/

/-- The queries that a display shows. -/
def contextQueries (context : Context) : List Query :=
  (if context.id 0 ≠ 0 then [.id context.idString] else []) ++
  context.pathSet.map (fun p => .path p.path (typeStrings p.pathType)) ++
  context.permissionSet.map .permission ++
  context.plugset.map (fun p => .plug p.expdir p.impid p.impdir)

/-- A display shows the queries that make the context. -/
theorem contextVisit_queries (context : Context) :
    contextVisit context =
      (contextQueries context).map fun query => wordString :: query.fields := by
  have hid : (if context.id 0 ≠ 0 then [Query.id context.idString] else []).map
      (fun query => wordString :: query.fields) =
      if context.id 0 ≠ 0 then [[wordString, wordId, context.idString]] else [] := by
    split <;> rfl
  simp only [contextVisit, contextQueries, List.map_append, List.map_map, hid]
  rfl

/-- A query that is an operation of the file system, with texts that pass `is_utf8`. -/
structure Query.Replays (stat : CStr → Bool → StatAnswer) (query : Query) (op : ContextOp) :
    Prop where
  utf8 : checkUtf8 query.fields = true
  operation : query.operation (.over stat) = some op

/-- Operations that succeed one after the other. -/
inductive Context.Succeeds : Context → List ContextOp → Context → Prop
  | nil {context : Context} : Succeeds context [] context
  | cons {context context' context'' : Context} {op : ContextOp} {ops : List ContextOp} :
      context.step op = (0, context') → Succeeds context' ops context'' →
      Succeeds context (op :: ops) context''

/-- Two parts that succeed, one after the other. -/
theorem Context.Succeeds.append {context context' context'' : Context} {ops ops' : List ContextOp}
    (h : context.Succeeds ops context') (h' : context'.Succeeds ops' context'') :
    context.Succeeds (ops ++ ops') context'' := by
  induction h with
  | nil => exact h'
  | cons hstep _ ih => exact .cons hstep (ih h')

/-- Operations that all succeed make of the context what they make in any case. -/
theorem Context.Succeeds.run {context context' : Context} {ops : List ContextOp}
    (h : context.Succeeds ops context') : context' = context.run ops := by
  induction h with
  | nil => rfl
  | cons hstep _ ih => rw [ih, Context.run, Context.run, List.foldl_cons, hstep]

/-- **A session replays queries** whose operations succeed: each one is answered done. -/
theorem session_replays (permgr : PermMgr σ) (mac : Mac σ) {c : Client σ} {q : List UInt8}
    (h : OutIdle c.prot q) (ha : c.Accepting) (hanswers : ∀ n, c.answers n = .over stat)
    {queries : List Query} {ops : List ContextOp} {context' : Context}
    (hall : List.Forall₂ (Query.Replays stat) queries ops)
    (hs : c.context.Succeeds ops context') :
    (∃ q', Puts c (c.session permgr mac (queries.map Query.fields)) q q'
        (queries.map fun _ => [wordDone])) ∧
      (c.session permgr mac (queries.map Query.fields)).context = context' := by
  induction hall generalizing c q with
  | nil =>
    cases hs
    exact ⟨⟨q, .refl h⟩, rfl⟩
  | @cons query op queries ops hquery _ ih =>
    cases hs with
    | cons hstep hs =>
      have hop : query.operation (c.started.answers 0) = some op :=
        (hanswers 0).symm ▸ hquery.operation
      have hrc : (c.started.context.step op).1 ≥ 0 := by
        rw [show c.started.context.step op = _ from hstep]
      obtain ⟨⟨q₁, hputs⟩, hcontext, hfrom⟩ := serve_done permgr mac (c := c.started) h ha hop hrc
      have hhello : ¬ query.IsHello := by
        intro hh
        cases query with
        | hello _ _ => cases hop
        | _ => cases hh
      have hserve : onrequest permgr mac c query.fields = c.started.serve permgr mac query :=
        onrequest_query ⟨hquery.utf8, rfl, fun hh => absurd hh hhello⟩
      rw [← hserve] at hputs hcontext hfrom
      have hanswers' : ∀ n, (onrequest permgr mac c query.fields).answers n = .over stat := by
        intro n
        obtain ⟨m, hm⟩ := hfrom n
        exact hm.trans (hanswers m)
      have hcontext : (onrequest permgr mac c query.fields).context = _ :=
        hcontext.trans (congrArg Prod.snd hstep)
      obtain ⟨⟨q₂, hputs'⟩, hlast⟩ := ih hputs.idle (hputs.accepting ha) hanswers' (hcontext ▸ hs)
      have hputs : Puts c (onrequest permgr mac c query.fields) q q₁ [[wordDone]] :=
        ⟨hputs.idle, hputs.stream, hputs.same, hputs.accepting⟩
      exact ⟨⟨q₂, hputs.trans hputs'⟩, hlast⟩

/-! ## The replay of each set -/

/-- An id is UTF-8 text. -/
theorem isUtf8_of_validId {id : CStr} (h : ValidId id) : isUtf8 id = true := by
  refine Utf8.isUtf8 (.ascii fun a ha => ?_)
  have hchar := h.chars a ha
  simp only [isIdChar, isAlnum, Bool.or_eq_true, Bool.and_eq_true, decide_eq_true_eq] at hchar
  rcases hchar with (((⟨-, h1⟩ | ⟨-, h1⟩) | ⟨-, h1⟩) | rfl) | rfl
  · exact UInt8.le_trans h1 (by decide)
  · exact UInt8.le_trans h1 (by decide)
  · exact UInt8.le_trans h1 (by decide)
  · decide
  · decide

/-- Queries that replay from one context to another. -/
def Replaying (stat : CStr → Bool → StatAnswer) (context : Context) (queries : List Query)
    (context' : Context) : Prop :=
  ∃ ops, List.Forall₂ (Query.Replays stat) queries ops ∧ context.Succeeds ops context'

/-- Two parts of a replay. -/
theorem Replaying.append {context context' context'' : Context} {queries queries' : List Query}
    (h : Replaying stat context queries context')
    (h' : Replaying stat context' queries' context'') :
    Replaying stat context (queries ++ queries') context'' := by
  obtain ⟨ops, hall, hs⟩ := h
  obtain ⟨ops', hall', hs'⟩ := h'
  exact ⟨ops ++ ops', List.rel_append hall hall', hs.append hs'⟩

/-- Nothing is replayed. -/
theorem Replaying.nil (context : Context) : Replaying stat context [] context :=
  ⟨[], .nil, .nil⟩

/-- One query is replayed, then the others. -/
theorem Replaying.cons {context context' context'' : Context} {query : Query} {queries : List Query}
    (op : ContextOp) (hquery : query.Replays stat op)
    (hstep : context.step op = (0, context')) (h : Replaying stat context' queries context'') :
    Replaying stat context (query :: queries) context'' := by
  obtain ⟨ops, hall, hs⟩ := h
  exact ⟨op :: ops, .cons hquery hall, .cons hstep hs⟩

/-- The paths are replayed in their order. -/
theorem replaying_paths {paths : List Path} (hall : ∀ p ∈ paths, pathTypeIsValid p.pathType = true ∧
      PathAdmitted stat p.path) {context : Context} (hflag : context.errorFlag = false)
    (hnodup : ((context.pathSet ++ paths).map Path.path).Nodup) :
    ∃ needId, Replaying stat context
      (paths.map fun p => .path p.path (typeStrings p.pathType))
      { context with pathSet := context.pathSet ++ paths, needId } := by
  induction paths generalizing context with
  | nil => exact ⟨context.needId, by rw [List.append_nil]; exact .nil context⟩
  | cons path paths ih =>
    obtain ⟨⟨htype, hpath⟩, hall⟩ := List.forall_mem_cons.1 hall
    have hfresh : path.path ∉ context.pathSet.map Path.path := by
      rw [List.map_append, List.nodup_append] at hnodup
      exact fun hm => hnodup.2.2 _ hm _ (List.mem_map_of_mem List.mem_cons_self) rfl
    have hstep := contextAddPath_admitted hflag htype hpath hfresh
    have hutf8 : checkUtf8 [wordPath, path.path, typeStrings path.pathType] = true := by
      have htypes : isUtf8 (typeStrings path.pathType) = true := by
        cases path.pathType <;> decide +kernel
      have hword : isUtf8 wordPath = true := by decide +kernel
      simp [checkUtf8, hword, hpath.utf8, htypes]
    obtain ⟨needId, hs⟩ := @ih hall
      { context with
        pathSet := context.pathSet ++ [path]
        needId := if path.pathType ≠ .typeDefault then true else context.needId }
      hflag (by simpa using hnodup)
    refine ⟨needId, ?_⟩
    rw [List.append_cons]
    exact .cons (.addPath (.over stat) path.path (typeStrings path.pathType)) ⟨hutf8, rfl⟩ hstep hs

/-- The permissions are replayed in their order. -/
theorem replaying_permissions {permissions : List CStr} (hall : ∀ p ∈ permissions,
      isUtf8 p = true ∧ SEC_LSM_MANAGER_MIN_SIZE_PERMISSION ≤ p.length ∧
        p.length ≤ SEC_LSM_MANAGER_MAX_SIZE_PERMISSION)
    {context : Context} (hflag : context.errorFlag = false)
    (hdistinct : (context.permissionSet ++ permissions).Pairwise fun a b => eqCase a b = false) :
    ∃ needId, Replaying stat context (permissions.map .permission)
      { context with permissionSet := context.permissionSet ++ permissions, needId } := by
  induction permissions generalizing context with
  | nil => exact ⟨context.needId, by rw [List.append_nil]; exact .nil context⟩
  | cons permission permissions ih =>
    obtain ⟨⟨hu, hmin, hmax⟩, hall⟩ := List.forall_mem_cons.1 hall
    have hfresh : permissionSetHas context.permissionSet permission = false := by
      rw [permissionSetHas, List.any_eq_false]
      intro p hp
      have hpp := (List.pairwise_append.1 hdistinct).2.2 p hp _ List.mem_cons_self
      rw [eqCase_comm, hpp]
      exact Bool.false_ne_true
    have hstep := @contextAddPermission_admitted stat _ _ hflag hmin hmax hfresh
    have hutf8 : checkUtf8 [wordPermission, permission] = true := by
      have hword : isUtf8 wordPermission = true := by decide +kernel
      simp [checkUtf8, hword, hu]
    obtain ⟨needId, hs⟩ := @ih hall
      { context with permissionSet := context.permissionSet ++ [permission], needId := true }
      hflag (by simpa using hdistinct)
    refine ⟨needId, ?_⟩
    rw [List.append_cons]
    exact .cons (.addPermission (.over stat) permission) ⟨hutf8, rfl⟩ hstep hs

/-- The plugs are replayed in their order, which turns it over. -/
theorem replaying_plugs {plugs : List Plug} (hall : ∀ p ∈ plugs, PlugAdmitted stat p)
    {context : Context} (hflag : context.errorFlag = false)
    (hnodup : ((plugs.reverse ++ context.plugset).map Plug.impdir).Nodup) :
    ∃ needId, Replaying stat context (plugs.map fun p => .plug p.expdir p.impid p.impdir)
      { context with plugset := plugs.reverse ++ context.plugset, needId } := by
  induction plugs generalizing context with
  | nil => exact ⟨context.needId, .nil context⟩
  | cons plug plugs ih =>
    obtain ⟨hplug, hall⟩ := List.forall_mem_cons.1 hall
    rw [List.reverse_cons, List.append_assoc, List.singleton_append] at hnodup ⊢
    have hfresh : plug.impdir ∉ context.plugset.map Plug.impdir := by
      rw [List.map_append, List.map_cons, List.nodup_append, List.nodup_cons] at hnodup
      exact hnodup.2.1.1
    have hstep := contextAddPlug_admitted hflag hplug hfresh
    have hutf8 : checkUtf8 [wordPlug, plug.expdir, plug.impid, plug.impdir] = true := by
      have hword : isUtf8 wordPlug = true := by decide +kernel
      simp [checkUtf8, hword, hplug.utf8]
    obtain ⟨needId, hs⟩ := @ih hall
      { context with plugset := plug :: context.plugset, needId := true } hflag hnodup
    exact ⟨needId, .cons (.addPlug (.over stat) plug.expdir plug.impid plug.impdir)
      ⟨hutf8, rfl⟩ hstep hs⟩

/-- **The queries of an admitted context are replayed** on a created one. -/
theorem Context.Admitted.replays {context : Context} (h : context.Admitted stat)
    (hterm : context.IdTerminated) (mem : Nat → UInt8) :
    ∃ needId, Replaying stat (contextCreate mem) (contextQueries context)
      { id := if context.id 0 ≠ 0 then writeCells (contextCreate mem).id 0 context.idString.bytes
          else (contextCreate mem).id
        permissionSet := context.permissionSet, pathSet := context.pathSet
        plugset := context.plugset.reverse, needId, errorFlag := false } := by
  have hid : Replaying stat (contextCreate mem)
      (if context.id 0 ≠ 0 then [.id context.idString] else [])
      { contextCreate mem with
        id := if context.id 0 ≠ 0 then writeCells (contextCreate mem).id 0 context.idString.bytes
          else (contextCreate mem).id } := by
    split
    · rename_i h0
      have hvalid := h.validId hterm h0
      have hutf8 : checkUtf8 [wordId, context.idString] = true := by
        have hword : isUtf8 wordId = true := by decide +kernel
        simp [checkUtf8, hword, isUtf8_of_validId hvalid]
      exact .cons (.setId context.idString) ⟨hutf8, rfl⟩
        (contextSetId_valid rfl rfl hvalid) (.nil _)
    · exact .nil _
  generalize (if context.id 0 ≠ 0 then
    writeCells (contextCreate mem).id 0 context.idString.bytes
    else (contextCreate mem).id) = id at *
  obtain ⟨needId₁, hpaths⟩ := @replaying_paths stat context.pathSet
    (fun p hp => ⟨(h.inv.paths_valid p hp).2, h.paths p hp⟩) { contextCreate mem with id } rfl
    h.inv.paths_distinct
  obtain ⟨needId₂, hpermissions⟩ := @replaying_permissions stat context.permissionSet
    (fun p hp => ⟨h.permissions p hp, h.inv.permissions_length p hp⟩)
    { contextCreate mem with id, pathSet := context.pathSet, needId := needId₁ } rfl
    h.inv.permissions_distinct
  have hnodup : ((context.plugset.reverse ++ []).map Plug.impdir).Nodup := by
    rw [List.append_nil, List.map_reverse, List.nodup_reverse]
    exact h.inv.plugs_distinct
  obtain ⟨needId₃, hplugs⟩ := @replaying_plugs stat context.plugset h.plugs
    { contextCreate mem with
      id, pathSet := context.pathSet, permissionSet := context.permissionSet, needId := needId₂ }
    rfl hnodup
  refine ⟨needId₃, ?_⟩
  have hall := ((hid.append hpaths).append hpermissions).append hplugs
  have hplugset : context.plugset.reverse ++ (contextCreate mem).plugset =
      context.plugset.reverse := List.append_nil _
  simp only [hplugset] at hall
  exact hall

/-! ## Main result -/

/-- The same properties, with the plugs in any order. -/
structure SameProperties (context context' : Context) : Prop where
  terminated : context'.IdTerminated
  id : context'.idString = context.idString
  paths : context'.pathSet = context.pathSet
  permissions : context'.permissionSet = context.permissionSet
  plugs : ∀ plug, plug ∈ context'.plugset ↔ plug ∈ context.plugset
  needId : context'.needId = context.needId

/-- The records of a display that ends with done, on any channel. -/
theorem shownRecords_of_done {c : Client σ} {q : List UInt8} (h : OutIdle c.prot q)
    {rs : List (List CStr)} (hrs : [] ∉ rs) (hemits : Emits c (onDisplay c) (rs ++ [[wordDone]])) :
    rs = shownRecords c.context ∧ ∀ fields ∈ contextVisit c.context, Fits fields := by
  have hne : [] ∉ rs ++ [[wordDone]] := by simpa using hrs
  obtain ⟨q₁, rs₁, hv⟩ := sendDisplay_spec h
  -- the end of the reply is the last record
  have hend : ∀ {ends : List (List CStr)} {q₂ : List UInt8} {last : List CStr}, last ≠ [] →
      Puts c (onDisplay c) q q₂ (rs₁ ++ ends) → ends = [last] ∨ ends = [] →
      rs = rs₁ ∧ [wordDone] = last := by
    intro ends q₂ last hlast hputs hends
    obtain rfl | rfl := hends
    · have hsame := hemits.unique (hputs.emits h) hne (shownRecords_ne_nil hv.isPrefix hlast)
      exact List.append_inj' hsame rfl |>.imp id List.singleton_inj.1
    · have hnil : [] ∉ rs₁ ++ ([] : List (List CStr)) := by
        rw [List.append_nil]
        exact fun hm => (shownRecords_strings _ _ (hv.isPrefix.subset hm)).2.1 rfl
      have hsame := hemits.unique (hputs.emits h) hne hnil
      rw [List.append_nil] at hsame
      have hm : [wordDone] ∈ rs₁ := hsame ▸ List.mem_append_right _ (List.mem_singleton_self _)
      have hkey := (shownRecords_strings _ _ (hv.isPrefix.subset hm)).1
      exact absurd (Option.some.inj hkey) (by decide)
  cases lt_or_ge (sendDisplay c).1 0 with
  | inl hrc =>
    obtain ⟨q₂, ends, hputs, -, hends, -⟩ := sendError_spec hv.puts.idle (.lit "internal")
    have heq : onDisplay c = sendError (sendDisplay c).2 (.lit "internal") := by
      simp only [onDisplay, if_neg (Int.not_le.2 hrc)]
    have hlast := (hend (by simp) (heq ▸ hv.puts.trans hputs) hends).2
    exact absurd (List.cons.inj hlast).1 wordDone_ne_wordError
  | inr hrc =>
    obtain ⟨q₂, ends, hputs, -, hends, -⟩ := sendDone_spec hv.puts.idle none
    have heq : onDisplay c = sendDone (sendDisplay c).2 none := by
      simp only [onDisplay, if_pos hrc]
    have hrs₁ := (hend (by simp) (heq ▸ hv.puts.trans hputs) hends).1
    obtain ⟨hwhole, hfit⟩ := hv.whole (Int.le_antisymm hv.code hrc)
    exact ⟨hrs₁.trans hwhole, shownRecords_fit.1 hfit⟩

/-- A record that fits does so without its first field. -/
theorem fits_tail {field : CStr} {fields : List CStr} (hne : fields ≠ [])
    (h : Fits (field :: fields)) : Fits fields := by
  cases fields with
  | nil => exact absurd rfl hne
  | cons f fs =>
    simp only [Fits, encode, Marks.encodeRecord, List.map_cons, Marks.encodeFields_cons_cons,
      List.length_append, List.length_cons] at h ⊢
    omega

/-- Without the field string and the record of the error flag, a display is the queries of the
context. -/
theorem shownRecords_queries (context : Context) :
    ((shownRecords context).filter (· ≠ errorOn)).map List.tail =
      (contextQueries context).map Query.fields := by
  have hvisit : ∀ fields ∈ contextVisit context, decide (fields ≠ errorOn) = true := by
    intro fields hf
    rw [decide_eq_true_eq]
    rintro rfl
    rw [contextVisit_queries, List.mem_map] at hf
    obtain ⟨query, hquery, heq⟩ := hf
    have hkey : query.fields.head? = some wordError := by
      rw [(List.cons.inj heq).2]
      rfl
    cases query with
    | log setlog => cases setlog <;> exact absurd (Option.some.inj hkey) (by decide)
    | _ => exact absurd (Option.some.inj hkey) (by decide)
  have herror : (if contextHasError context then [errorOn] else []).filter (· ≠ errorOn) = [] := by
    split <;> simp
  rw [shownRecords, List.filter_append, herror, List.nil_append, List.filter_eq_self.2 hvisit,
    contextVisit_queries, List.map_map]
  rfl

/-- A replayed context has the same properties when its id ends where the id of the display
does. -/
theorem sameProperties_replayed {context : Context} (h : context.Admitted stat)
    (hterm : context.IdTerminated) (mem : Nat → UInt8) {needId : Bool}
    (hinv : Context.Inv
      { id := if context.id 0 ≠ 0 then writeCells (contextCreate mem).id 0 context.idString.bytes
          else (contextCreate mem).id
        permissionSet := context.permissionSet, pathSet := context.pathSet
        plugset := context.plugset.reverse, needId, errorFlag := false }) :
    SameProperties context
      { id := if context.id 0 ≠ 0 then writeCells (contextCreate mem).id 0 context.idString.bytes
          else (contextCreate mem).id
        permissionSet := context.permissionSet, pathSet := context.pathSet
        plugset := context.plugset.reverse, needId, errorFlag := false } ↔
      context.idString.length < SEC_LSM_MANAGER_MAX_SIZE_ID ∨
        mem SEC_LSM_MANAGER_MAX_SIZE_ID = 0 := by
  have hneed : needId = context.needId := by
    rw [Bool.eq_iff_iff, hinv.needId, h.inv.needId]
    simp
  have hsame : ∀ {id : Nat → UInt8} {context' : Context}, context' = { context with id } →
      (context'.IdTerminated ∧ context'.idString = context.idString ↔
        SameProperties context
          { id, permissionSet := context.permissionSet, pathSet := context.pathSet
            plugset := context.plugset.reverse, needId, errorFlag := false }) := by
    rintro id _ rfl
    constructor
    · rintro ⟨hid, hstring⟩
      exact ⟨hid, hstring, rfl, rfl, fun _ => List.mem_reverse, hneed⟩
    · intro hs
      exact ⟨hs.terminated, hs.id⟩
  rw [← hsame rfl]
  cases Decidable.em (context.id 0 = 0) with
  | inl h0 =>
    -- no id is shown, and none is replayed
    have hempty := (Context.empty_of_zero h0).2
    have hcreated := @Context.empty_of_zero { context with id := (contextCreate mem).id } rfl
    simp only [ne_eq, h0, not_true_eq_false, if_false, hempty]
    exact iff_of_true hcreated (.inl (by decide))
  | inr h0 =>
    have hvalid := h.validId hterm h0
    have hshows := shows_copied_id hvalid { context with id := (contextCreate mem).id }
    simp only [ne_eq, h0, not_false_eq_true, if_true]
    refine hshows.trans ?_
    cases Nat.lt_or_eq_of_le hvalid.le_max with
    | inl hlt => exact iff_of_true (if_pos hlt) (.inl hlt)
    | inr heq =>
      have hbyte : (contextCreate mem).id SEC_LSM_MANAGER_MAX_SIZE_ID =
          mem SEC_LSM_MANAGER_MAX_SIZE_ID :=
        @if_neg _ _ (Nat.lt_irrefl SEC_LSM_MANAGER_MAX_SIZE_ID) UInt8 0 _
      simp only [heq, hbyte, Nat.lt_irrefl, false_or]

/-- **A display is a faithful serialisation of the context.** For every session over a file system
that does not change, whose id ends in its array: if a display ends with done, the records that it
emitted, without the field string and but for the error flag, are answered done by a created
session over the same file system, and set the same properties, exactly when the id is shorter
than the largest one or the byte that `context_init` leaves as it was allocated is NUL. -/
theorem display_replays (permgr : PermMgr σ) (mac : Mac σ) (mem mem' : ProtMem)
    (idmem idmem' : Nat → UInt8) (system system' : σ) (serverLog serverLog' : Bool)
    {answers : Nat → Answers} (hstat : ∀ n, (answers n).stat = stat) (writes : List OutAnswer)
    {writes' : List OutAnswer} (hacc : ∀ answer ∈ writes', answer.Accepts)
    (input input' : List UInt8) (before : List (List CStr)) :
    let c := (clientCreate mem idmem system serverLog answers writes input).session permgr mac
      before
    let fresh := clientCreate mem' idmem' system' serverLog' (fun _ => .over stat) writes' input'
    c.context.IdTerminated → ∀ strings, [] ∉ strings →
      Emits c (c.session permgr mac [[wordDisplay]]) (strings ++ [[wordDone]]) →
      let queries := (strings.filter (· ≠ errorOn)).map List.tail
      let e := fresh.session permgr mac queries
      (∀ query ∈ queries, Fits query) ∧
        (Emits fresh e (queries.map fun _ => [wordDone]) ∧ SameProperties c.context e.context ↔
          c.context.idString.length < SEC_LSM_MANAGER_MAX_SIZE_ID ∨
            idmem' SEC_LSM_MANAGER_MAX_SIZE_ID = 0) := by
  intro c fresh hterm strings hnil hemits queries e
  have h₀ := outIdle_protReset mem
  obtain ⟨q, rs, hp⟩ := session_puts permgr mac
    (c := clientCreate mem idmem system serverLog answers writes input) h₀ before
  obtain ⟨ops, hops⟩ := session_operates permgr mac
    (c := clientCreate mem idmem system serverLog answers writes input) h₀ before
  have hadmitted : c.context.Admitted stat :=
    hops.context ▸ (contextCreate_admitted idmem).run hops.served hstat
  rw [show c.session permgr mac [[wordDisplay]] = onDisplay c.started from
    onrequest_display permgr mac c] at hemits
  obtain ⟨hstrings, hfits⟩ : strings = shownRecords c.context ∧
      ∀ fields ∈ contextVisit c.context, Fits fields :=
    shownRecords_of_done (c := c.started) hp.idle hnil hemits
  have hqueries : queries = (contextQueries c.context).map Query.fields := by
    rw [← shownRecords_queries, ← hstrings]
  have hfits' : ∀ query ∈ queries, Fits query := by
    rw [hqueries, List.forall_mem_map]
    intro query hquery
    have hshown : wordString :: query.fields ∈ contextVisit c.context := by
      rw [contextVisit_queries]
      exact List.mem_map_of_mem hquery
    refine fits_tail (fun hnone => ?_) (hfits _ hshown)
    cases query with
    | log setlog => cases setlog <;> cases hnone
    | _ => cases hnone
  -- the replay
  obtain ⟨needId, ops', hall, hs⟩ := hadmitted.replays hterm idmem'
  obtain ⟨⟨q', hputs⟩, hcontext⟩ := session_replays permgr mac (c := fresh)
    (outIdle_protReset mem') hacc (fun _ => rfl) hall hs
  rw [← hqueries] at hputs hcontext
  have hdone : Emits fresh e (queries.map fun _ => [wordDone]) := by
    have hemits := hputs.emits (outIdle_protReset mem')
    rwa [hqueries, List.map_map]
  have hinv : ((contextCreate idmem').run ops').Inv := (Context.Inv.of_empty _ _).run ops'
  rw [← hs.run] at hinv
  have hsame := sameProperties_replayed hadmitted hterm idmem' hinv
  rw [← hcontext] at hsame
  exact ⟨hfits', (and_iff_right hdone).trans hsame⟩

/-- The id of a session is replayed. -/
theorem display_replays_id :
    let c := Client.fresh.session PermMgr.idle.recorded Mac.idle.recorded [[wordId, .lit "ab"]]
    let e := Client.fresh.session PermMgr.idle.recorded Mac.idle.recorded
      ((([[wordString, wordId, .lit "ab"]] : List (List CStr)).filter (· ≠ errorOn)).map List.tail)
    SameProperties c.context e.context := by
  intro c e
  have hemits : Emits c (c.session PermMgr.idle.recorded Mac.idle.recorded [[wordDisplay]])
      ([[wordString, wordId, .lit "ab"]] ++ [[wordDone]]) := by
    unfold Emits
    decide +kernel
  have hall := @display_replays _ _ PermMgr.idle.recorded Mac.idle.recorded
    ⟨fun _ => 0, fun _ => 0, fun _ => 0⟩ ⟨fun _ => 0, fun _ => 0, fun _ => 0⟩
    (fun _ => 0) (fun _ => 0) ((), []) ((), []) false false (fun _ => .plain)
    (fun _ => rfl) [] [] nofun [] [] [[wordId, .lit "ab"]] ⟨2, by decide +kernel⟩
    [[wordString, wordId, .lit "ab"]] (by decide +kernel) hemits
  exact (hall.2.2 (.inl (by decide +kernel))).2

/-- An id of the largest size. -/
def longId : CStr :=
  ⟨List.replicate 200 97, by decide +kernel⟩

/-- Its display is answered done, and its replay leaves an id that does not end in the array. -/
theorem display_loses_id :
    let c := Client.fresh.session PermMgr.idle.recorded Mac.idle.recorded [[wordId, longId]]
    let fresh := clientCreate ⟨fun _ => 0, fun _ => 0, fun _ => 0⟩ (fun _ => 1) ((), []) false
      (fun _ => .plain) [] []
    c.context.IdTerminated ∧
      Emits c (c.session PermMgr.idle.recorded Mac.idle.recorded [[wordDisplay]])
        [[wordString, wordId, longId], [wordDone]] ∧
      ¬ (fresh.session PermMgr.idle.recorded Mac.idle.recorded
        [[wordId, longId]]).context.IdTerminated := by
  intro c fresh
  refine ⟨⟨200, by decide +kernel⟩, by unfold Emits; decide +kernel, ?_⟩
  have hnone : ∀ i < Context.idSize, (fresh.session PermMgr.idle.recorded Mac.idle.recorded
      [[wordId, longId]]).context.id i ≠ 0 := by decide +kernel
  rintro ⟨i, hlt, hi⟩
  exact hnone i hlt hi

end SecLsmManager
