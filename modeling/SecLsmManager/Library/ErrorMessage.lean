import SecLsmManager.Library.Library
import SecLsmManager.Lib.Lines

/-!
# The message of an error

`sec_lsm_manager_error_message` joins the fields that follow `error` in a reply. One loop computes
the size of the text, another one writes it. The first keeps the size of the last field only, so
that the text fits exactly when the fields before it take no room (`errorMessage_fits_iff`).
-/

namespace SecLsmManager

open Lib

def SPACE : UInt8 := 32

/-- The loop that computes the size, from the field of index `idx` on. -/
def messageSize : Nat → List CStr → Nat → Nat
  | _, [], size => size
  | idx, field :: fields, _ =>
    messageSize (idx + 1) fields (field.length + if idx > 1 then 1 else 0)

/-- The memory from the allocation on, the pointer `text`, and the indices that were written. -/
structure Message where
  bytes : Nat → UInt8
  text : Nat
  writes : List Nat

namespace Message

/-- `*text = c`. -/
def store (m : Message) (c : UInt8) : Message :=
  { m with bytes := Function.update m.bytes m.text c, writes := m.writes ++ [m.text] }

/-- `*text++ = c`. -/
def push (m : Message) (c : UInt8) : Message := { m.store c with text := m.text + 1 }

/-- `strcpy (text, s)`. -/
def strcpy (m : Message) (s : CStr) : Message :=
  { (s.bytes.foldl push m).store 0 with text := m.text }

/-- `while (*text) text++`, in at most `n` turns. -/
def toEnd : Nat → Message → Message
  | 0, m => m
  | n + 1, m => if m.bytes m.text = 0 then m else toEnd n { m with text := m.text + 1 }

/-- The loop that writes the fields, from the one of index `idx` on. -/
def writeFields : Nat → List CStr → Message → Message
  | _, [], m => m
  | idx, field :: fields, m =>
    let m := if idx > 1 then m.push SPACE else m
    writeFields (idx + 1) fields ((m.strcpy field).toEnd field.length)

end Message

/-- `sec_lsm_manager_error_message`: the code, and the message with the size of its allocation.
`alloc` is what `malloc` gives. -/
def errorMessage (handle : Handle) (alloc : Option (Nat → UInt8)) : Int × Option (Nat × Message) :=
  match handle.reply with
  | [] => (-EINVAL, none)
  | first :: fields =>
    if first ≠ wordError then (-EINVAL, none)
    else
      let size := messageSize 1 fields 0
      match alloc with
      | none => (-ENOMEM, none)
      | some bytes =>
        (0, some (size + 1, ((Message.mk bytes 0 []).store 0).writeFields 1 fields))

/-- The fields joined by single spaces. -/
def joined (fields : List CStr) : List UInt8 := [SPACE].intercalate (fields.map CStr.bytes)

/-- The message is the joined fields, and all that was written lies in the allocation. -/
structure Message.Fits (m : Message) (alloc : Nat) (fields : List CStr) : Prop where
  inside : ∀ i ∈ m.writes, i < alloc
  joined : cells m.bytes 0 (joined fields).length = joined fields
  ended : m.bytes (SecLsmManager.joined fields).length = 0

/-- What `sec_lsm_manager_error_message` is to return for the fields behind `error`: no message
only when `malloc` gave no memory. -/
def WellWritten (alloc : Option (Nat → UInt8)) (fields : List CStr) :
    Int × Option (Nat × Message) → Prop
  | (rc, some (size, m)) => rc = 0 ∧ m.Fits size fields
  | (rc, none) => alloc = none ∧ rc = -ENOMEM

/-- The text takes no more room than its last field and a space. -/
def LastOnly (fields : List CStr) : Prop := fields.length ≤ 1 ∨ ∃ last, fields = [.empty, last]

/-! ## The size -/

/-- The computed size is that of the last field only, as the loop assigns it and does not add. -/
theorem messageSize_snoc (idx : Nat) (fields : List CStr) (field : CStr) (size : Nat) :
    messageSize idx (fields ++ [field]) size =
      field.length + if idx + fields.length > 1 then 1 else 0 := by
  induction fields generalizing idx size with
  | nil => rfl
  | cons f fields ih =>
    rw [List.cons_append, messageSize, ih, List.length_cons, Nat.add_right_comm, Nat.add_assoc]

/-- The joined fields: the first, and a space before each of the others. -/
theorem joined_cons (field : CStr) (fields : List CStr) :
    joined (field :: fields) = field.bytes ++ fields.flatMap (SPACE :: ·.bytes) := by
  induction fields generalizing field with
  | nil => simp [joined]
  | cons next fields ih =>
    rw [joined, List.map_cons, List.map_cons, List.intercalate_cons_cons, ← List.map_cons,
      ← joined, ih, List.flatMap_cons]
    simp

/-- One more field takes its length and a space. -/
theorem length_joined_snoc {fields : List CStr} (h : fields ≠ []) (field : CStr) :
    (joined (fields ++ [field])).length = (joined fields).length + 1 + field.length := by
  rw [joined, List.map_append, List.map_singleton, intercalate_snoc SPACE (by simpa using h),
    ← joined, List.length_append, List.length_cons, CStr.length]
  omega

/-- The computed size is that of the text, or more, only for texts that its last field fills. -/
theorem length_joined_le_iff (fields : List CStr) :
    (joined fields).length ≤ messageSize 1 fields 0 ↔ LastOnly fields := by
  obtain rfl | ⟨before, last, rfl⟩ := List.eq_nil_or_concat fields
  · exact iff_of_true (Nat.le_refl 0) (.inl (Nat.zero_le 1))
  · rw [List.concat_eq_append, messageSize_snoc]
    cases before with
    | nil => exact iff_of_true (by simp [joined, CStr.length]) (.inl (Nat.le_refl 1))
    | cons first before =>
      rw [length_joined_snoc (List.cons_ne_nil first before), if_pos (by simp), joined_cons,
        LastOnly]
      constructor
      · intro hle
        have hzero : (first.bytes ++ before.flatMap (SPACE :: ·.bytes)).length = 0 := by omega
        obtain ⟨hfirst, hbefore⟩ := List.append_eq_nil_iff.1 (List.length_eq_zero_iff.1 hzero)
        cases before with
        | nil => exact .inr ⟨last, by rw [show first = .empty from CStr.ext hfirst]; rfl⟩
        | cons next before => cases hbefore
      · rintro (hlen | ⟨last', hfields⟩)
        · simp at hlen
        · obtain ⟨rfl, hrest⟩ := List.cons.inj hfields
          cases before with
          | nil =>
            simp only [CStr.empty, List.flatMap_nil, List.append_nil, List.length_nil]
            omega
          | cons next before => simp at hrest

/-! ## The writing -/

namespace Message

/-- The pointer is behind the text that was written. -/
structure At (m : Message) (text : List UInt8) : Prop where
  pos : m.text = text.length
  stored : cells m.bytes 0 text.length = text
  written : ∀ i < text.length, i ∈ m.writes
  inside : ∀ i ∈ m.writes, i ≤ text.length

/-- The text is there, with its NUL. -/
structure Ended (m : Message) (text : List UInt8) : Prop extends At m text where
  nul : m.bytes text.length = 0
  last : text.length ∈ m.writes

/-- One character more. -/
theorem At.push {m : Message} {text : List UInt8} (h : m.At text) (c : UInt8) :
    (m.push c).At (text ++ [c]) where
  pos := by
    rw [List.length_append, ← h.pos]
    rfl
  stored := by
    have hlast := cells_update_last m.bytes 0 text.length c
    rw [Nat.zero_add, h.stored] at hlast
    rw [List.length_append, List.length_singleton, Message.push, Message.store, h.pos]
    exact hlast
  written := by
    intro i hi
    rw [List.length_append, List.length_singleton] at hi
    obtain hlt | rfl := Nat.lt_succ_iff_lt_or_eq.1 hi
    · exact List.mem_append_left _ (h.written i hlt)
    · exact List.mem_append_right _ (List.mem_singleton.2 h.pos.symm)
  inside := by
    intro i hi
    rw [List.length_append, List.length_singleton]
    obtain hi | hi := List.mem_append.1 hi
    · exact Nat.le_succ_of_le (h.inside i hi)
    · rw [List.mem_singleton.1 hi, h.pos]
      exact Nat.le_succ _

/-- And those of a field. -/
theorem At.pushAll {m : Message} {text : List UInt8} (h : m.At text) (cs : List UInt8) :
    (cs.foldl Message.push m).At (text ++ cs) := by
  induction cs generalizing m text with
  | nil => rwa [List.append_nil]
  | cons c cs ih =>
    have hrest := ih (h.push c)
    rwa [List.append_assoc] at hrest

/-- The pointer goes to the first NUL. -/
theorem toEnd_eq {n : Nat} {m : Message} (h : ∀ k < n, m.bytes (m.text + k) ≠ 0) :
    m.toEnd n = { m with text := m.text + n } := by
  induction n generalizing m with
  | zero => rfl
  | succ n ih =>
    have hnext : ∀ k < n, m.bytes (m.text + 1 + k) ≠ 0 := by
      intro k hk
      rw [Nat.add_assoc, Nat.add_comm 1]
      exact h (k + 1) (Nat.succ_lt_succ hk)
    have h0 : m.bytes m.text ≠ 0 := h 0 (Nat.succ_pos n)
    rw [toEnd, if_neg h0, ih hnext, Nat.add_assoc, Nat.add_comm 1]

/-- A field is copied, and the pointer goes behind it. -/
theorem At.copy {m : Message} {text : List UInt8} (h : m.At text) (field : CStr) :
    ((m.strcpy field).toEnd field.length).Ended (text ++ field.bytes) := by
  have hall := h.pushAll field.bytes
  have hlen : (text ++ field.bytes).length = m.text + field.length := by
    rw [List.length_append, ← h.pos]
    rfl
  have hstored : cells (m.strcpy field).bytes 0 (text ++ field.bytes).length =
      text ++ field.bytes := by
    have hbehind : 0 + (text ++ field.bytes).length ≤ (field.bytes.foldl Message.push m).text := by
      rw [hall.pos, Nat.zero_add]
    exact (cells_update_outside _ 0 (.inr hbehind)).trans hall.stored
  have hend : (m.strcpy field).toEnd field.length =
      { m.strcpy field with text := m.text + field.length } := by
    refine toEnd_eq fun k hk h0 => ?_
    have hbytes : (text ++ field.bytes)[m.text + k]? = some (0 : UInt8) := by
      rw [← hstored, List.getElem?_eq_getElem (by rw [cells_length, hlen]; omega), getElem_cells,
        Nat.zero_add]
      exact congrArg some h0
    rw [h.pos, List.getElem?_append_right (Nat.le_add_right _ _), Nat.add_sub_cancel_left] at hbytes
    exact field.nonul (List.mem_of_getElem? hbytes)
  rw [hend]
  exact
    { pos := hlen.symm
      stored := hstored
      written := fun i hi => List.mem_append_left _ (hall.written i hi)
      inside := by
        intro i hi
        obtain hi | hi := List.mem_append.1 hi
        · exact hall.inside i hi
        · rw [List.mem_singleton.1 hi, hall.pos]
      nul := by
        rw [← hall.pos]
        exact Function.update_self _ _ _
      last := List.mem_append_right _ (List.mem_singleton.2 hall.pos.symm) }

/-- The fields behind the first one, each behind a space, with the NUL at the end. -/
theorem Ended.writeFields {m : Message} {text : List UInt8} (h : m.Ended text) {idx : Nat}
    (hidx : idx > 1) (fields : List CStr) :
    (m.writeFields idx fields).Ended (text ++ fields.flatMap (SPACE :: ·.bytes)) := by
  induction fields generalizing m text idx with
  | nil => rwa [List.flatMap_nil, List.append_nil]
  | cons field fields ih =>
    have hfield := (h.toAt.push SPACE).copy field
    have hrest := ih hfield (Nat.lt_succ_of_lt hidx)
    rw [Message.writeFields, if_pos hidx, List.flatMap_cons]
    simpa using hrest

/-- What is written is the joined fields with their NUL, whatever room was allocated. -/
theorem ended_writeFields (bytes : Nat → UInt8) (fields : List CStr) :
    (((Message.mk bytes 0 []).store 0).writeFields 1 fields).Ended (joined fields) := by
  have hstart : ((Message.mk bytes 0 []).store 0).Ended [] :=
    { pos := rfl
      stored := rfl
      written := nofun
      inside := fun i hi => Nat.le_of_eq (List.mem_singleton.1 hi)
      nul := Function.update_self 0 0 bytes
      last := List.mem_singleton.2 rfl }
  cases fields with
  | nil => exact hstart
  | cons field fields =>
    have hfirst := (hstart.toAt.copy field).writeFields (Nat.lt_succ_self 1) fields
    rw [joined_cons]
    exact hfirst

end Message

/-- **When the message fits.** For a reply `error` with some fields, the message is the joined
fields and lies in its allocation exactly when there is one field at most, or two of which the
first is empty. -/
theorem errorMessage_fits_iff (handle : Handle) (fields : List CStr) :
    (∀ alloc, WellWritten alloc fields
        (errorMessage { handle with reply := wordError :: fields } alloc)) ↔
      LastOnly fields := by
  have hended := fun bytes => Message.ended_writeFields bytes fields
  have hmessage : ∀ bytes, errorMessage { handle with reply := wordError :: fields } (some bytes) =
      (0, some (messageSize 1 fields 0 + 1,
        ((Message.mk bytes 0 []).store 0).writeFields 1 fields)) := by
    intro bytes
    simp [errorMessage]
  rw [← length_joined_le_iff]
  constructor
  · intro h
    have hwritten := h (some fun _ => 0)
    rw [hmessage] at hwritten
    exact Nat.le_of_lt_succ (hwritten.2.inside _ (hended _).last)
  · intro hle alloc
    cases alloc with
    | none => simp [errorMessage, WellWritten]
    | some bytes =>
      rw [hmessage]
      exact ⟨rfl, fun i hi => Nat.lt_succ_of_le (Nat.le_trans ((hended bytes).inside i hi) hle),
        (hended bytes).stored, (hended bytes).nul⟩

/-- The fields `a` and `b` are written over the end of an allocation of three bytes. -/
theorem errorMessage_overflows : ¬ ∀ (handle : Handle) (fields : List CStr) alloc,
    WellWritten alloc fields (errorMessage { handle with reply := wordError :: fields } alloc) := by
  intro h
  have hlast := (errorMessage_fits_iff ⟨protReset ⟨fun _ => 0, fun _ => 0, fun _ => 0⟩, false,
    .connected, []⟩ [.lit "a", .lit "b"]).1 (h _ _)
  obtain hlen | ⟨last, hfields⟩ := hlast
  · exact absurd hlen (by decide)
  · exact absurd (List.cons.inj hfields).1 (by decide)

end SecLsmManager
