import SecLsmManager.Context.Invariant

/-!
# What a context shows of the accepted settings

The settings accepted since the last clear, as the caller of the operations sees them from their
codes, against the content of the context. The sets always agree. The array of the id is cleared
by its first byte only and `context_set_id` copies no NUL, so the C string of the id is the one
that was set exactly when the byte after it was NUL before.
-/

namespace SecLsmManager

open Lib

/-- The settings of a period between two clears. -/
structure Settings where
  id : Option CStr
  paths : List Path
  permissions : List CStr
  plugs : List Plug

def Settings.none : Settings := ⟨.none, [], [], []⟩

/-- The settings after an operation that did not fail. -/
def Settings.accept (s : Settings) : ContextOp → Settings
  | .setId id => { s with id := some id }
  | .addPath _ path type =>
    { s with paths := s.paths ++ [⟨(stdAbsolute path).2, pathTypeGet type⟩] }
  | .addPermission _ permission => { s with permissions := s.permissions ++ [permission] }
  | .addPlug _ expdir impid impdir =>
    { s with plugs := ⟨(stdAbsolute expdir).2, impid, (stdAbsolute impdir).2⟩ :: s.plugs }
  | .raiseError => s
  | .clear => .none

/-- A context and the settings accepted by its operations since the last clear. -/
structure Tracked where
  context : Context
  settings : Settings

def Tracked.step (t : Tracked) (op : ContextOp) : Tracked :=
  let (rc, context) := t.context.step op
  { context, settings := if rc < 0 then t.settings else t.settings.accept op }

/-- `context_create` and then the operations. -/
def Tracked.run (mem : Nat → UInt8) (ops : List ContextOp) : Tracked :=
  ops.foldl Tracked.step ⟨contextCreate mem, .none⟩

/-- The content of the context is the settings. -/
structure Tracked.Shows (t : Tracked) : Prop where
  terminated : t.context.IdTerminated
  id : t.context.idString = t.settings.id.getD .empty
  paths : t.context.pathSet = t.settings.paths
  permissions : t.context.permissionSet = t.settings.permissions
  plugs : t.context.plugset = t.settings.plugs

/-- When `context_set_id` would copy an id, the byte after its copy is NUL. -/
def Context.RoomClean (context : Context) : ContextOp → Prop
  | .setId id => context.errorFlag = false → context.id 0 = 0 → contextIsValidId id ≥ 0 →
      context.id id.length = 0
  | _ => True

/-- One operation more. -/
theorem Tracked.run_concat (mem : Nat → UInt8) (ops : List ContextOp) (op : ContextOp) :
    Tracked.run mem (ops ++ [op]) = (Tracked.run mem ops).step op := by
  simp [Tracked.run]

/-- An array that starts with a NUL is the empty string. -/
theorem Context.empty_of_zero {context : Context} (h : context.id 0 = 0) :
    context.IdTerminated ∧ context.idString = .empty := by
  have hpos : 0 < Context.idSize := by decide
  refine ⟨⟨0, hpos, h⟩, CStr.ext ?_⟩
  exact CStr.bytes_ofBytes_cells hpos h List.not_mem_nil

/-- The bytes of an id that is set. -/
theorem cells_writeCells_id (id : CStr) (array : Nat → UInt8) :
    cells (writeCells array 0 id.bytes) 0 id.length = id.bytes :=
  cells_writeCells array 0 id.bytes

/-- What stands behind them stays. -/
theorem writeCells_id_length (id : CStr) (array : Nat → UInt8) :
    writeCells array 0 id.bytes id.length = array id.length :=
  writeCells_of_ge array id.bytes (Nat.le_of_eq (Nat.zero_add _))

/-- After the copy of a valid id, the array shows it when the byte after it is NUL, and only
then. -/
theorem shows_copied_id {id : CStr} (hid : ValidId id) (context : Context) :
    let context' := { context with id := writeCells context.id 0 id.bytes }
    context'.IdTerminated ∧ context'.idString = id ↔ context.id id.length = 0 := by
  have hlt : id.length < Context.idSize := Nat.lt_succ_of_le hid.le_max
  have hcells := cells_writeCells_id id context.id
  have hbyte := writeCells_id_length id context.id
  constructor
  · rintro ⟨-, h⟩
    by_contra hne
    obtain ⟨k, hk⟩ := Nat.exists_eq_add_of_lt hlt
    rw [Context.idString, hk, Nat.add_assoc] at h
    simp only at h
    rw [cells_append, hcells, Nat.zero_add, cells_succ, hbyte] at h
    have hb := congrArg CStr.bytes h
    simp only [CStr.ofBytes] at hb
    rw [List.takeWhile_append_of_pos, List.takeWhile_cons_of_pos (by simpa using hne)] at hb
    · simp at hb
    · intro b hb
      simp only [ne_eq, decide_eq_true_eq]
      rintro rfl
      exact id.nonul hb
  · intro h0
    rw [h0] at hbyte
    refine ⟨⟨id.length, hlt, hbyte⟩, CStr.ext ?_⟩
    exact (CStr.bytes_ofBytes_cells hlt hbyte (by rw [hcells]; exact id.nonul)).trans hcells

/-- An operation that meets the condition keeps the content equal to the settings. -/
theorem Tracked.Shows.step {t : Tracked} (h : t.Shows) {op : ContextOp}
    (hop : t.context.RoomClean op) : (t.step op).Shows := by
  unfold Tracked.step
  rcases t.context.step_cases op with ⟨rc, hrc, heq⟩ | ⟨context', heq, ha⟩
  · rw [heq]
    simp only [if_pos hrc]
    exact h
  · rw [heq]
    simp only [Int.lt_irrefl, if_false]
    cases ha with
    | @setId id h1 h2 h3 =>
      obtain ⟨h4, h5⟩ := (shows_copied_id h3 t.context).2
        (hop h1 h2 (contextIsValidId_nonneg.2 h3))
      exact { h with terminated := h4, id := h5 }
    | addPath _ _ _ _ => exact { h with paths := congrArg (· ++ _) h.paths }
    | addPermission _ _ _ _ => exact { h with permissions := congrArg (· ++ _) h.permissions }
    | addPlug _ _ _ _ _ => exact { h with plugs := congrArg (_ :: ·) h.plugs }
    | raiseError => exact { h with }
    | clear =>
      have h0 : (contextClear t.context).id 0 = 0 := by simp [contextClear]
      obtain ⟨h1, h2⟩ := Context.empty_of_zero h0
      exact ⟨h1, h2, rfl, rfl, rfl⟩

/-- An operation that does not meet the condition makes the content differ from the settings. -/
theorem Tracked.not_shows_step {t : Tracked} {op : ContextOp} (hop : ¬ t.context.RoomClean op) :
    ¬ (t.step op).Shows := by
  intro h
  cases op with
  | setId id =>
    simp only [Context.RoomClean, Classical.not_imp] at hop
    obtain ⟨h1, h2, h3, h4⟩ := hop
    have hid := contextIsValidId_nonneg.1 h3
    have heq : t.step (.setId id) =
        ⟨{ t.context with id := writeCells t.context.id 0 id.bytes },
          { t.settings with id := some id }⟩ := by
      simp only [Tracked.step, Context.step, contextSetId_valid h1 h2 hid, Int.lt_irrefl, if_false]
      rfl
    rw [heq] at h
    exact h4 ((shows_copied_id hid t.context).1 ⟨h.terminated, h.id⟩)
  | _ => exact hop trivial

/-- **What a context shows.** In a run of the operations from `context_create`, the context shows
the accepted settings in every state exactly when every id is copied before a NUL. -/
theorem context_shows_settings (mem : Nat → UInt8) (ops : List ContextOp) :
    (∀ pre, pre <+: ops → (Tracked.run mem pre).Shows) ↔
      ∀ pre op, pre ++ [op] <+: ops → (Tracked.run mem pre).context.RoomClean op := by
  constructor
  · intro h pre op hpre
    by_contra hop
    exact Tracked.not_shows_step hop (Tracked.run_concat mem pre op ▸ h _ hpre)
  · intro h pre
    induction pre using List.reverseRecOn with
    | nil =>
      intro _
      have h0 : (contextCreate mem).id 0 = 0 := rfl
      obtain ⟨h1, h2⟩ := Context.empty_of_zero h0
      exact ⟨h1, h2, rfl, rfl, rfl⟩
    | append_singleton pre op ih =>
      intro hpre
      rw [Tracked.run_concat]
      exact (ih ((List.prefix_append _ _).trans hpre)).step (h pre op hpre)

/-- A clear leaves the tail of the id in the array, behind the next and shorter id. -/
theorem context_shows_stale_id :
    ¬ ∀ (mem : Nat → UInt8) (ops : List ContextOp), (Tracked.run mem ops).Shows := by
  intro h
  have hid := (h (fun _ => 0) [.setId (.lit "longidentifier"), .clear, .setId (.lit "ab")]).id
  exact absurd hid (by decide +kernel)

end SecLsmManager
