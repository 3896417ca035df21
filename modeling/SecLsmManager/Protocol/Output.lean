import SecLsmManager.Protocol.Prot

/-!
# The output side of the protocol handler

The output buffer refines a queue of bytes. `OutState p q w` reads the state of a handler as the
committed bytes `q`, which `prot_write` may transfer, followed by the bytes `w` of the record in
composition. Each function of the output side is specified by what it does to `q` and `w`:
`protPut_spec` adds a whole encoded record to `q` or leaves it as it was, and `protWrite_spec`
takes bytes from its front.
-/

namespace SecLsmManager

open Lib

/-- A record as it is written on the wire. -/
def encode (fields : List CStr) : List UInt8 := protMarks.encodeRecord (fields.map CStr.bytes)

/-- `buf_put_string` escapes what the escaping library escapes. -/
theorem putEscape_eq (c : UInt8) (s : List UInt8) : putEscape c s = protMarks.needsEsc c s := by
  unfold putEscape Marks.needsEsc
  cases s <;> rfl

/-! ## The output ring -/

/-- The bytes a ring buffer holds. -/
def Buf.pending (b : Buf) : List UInt8 :=
  ringCells PROT_MAX_BUFFER_LENGTH b.content b.pos b.count

/-- The bounds of a ring buffer. -/
structure Buf.Ring (b : Buf) : Prop where
  pos_lt : b.pos < PROT_MAX_BUFFER_LENGTH
  count_le : b.count ≤ PROT_MAX_BUFFER_LENGTH

/-- The ring buffer with one byte more. -/
def Buf.push (b : Buf) (c : UInt8) : Buf :=
  { b with
    count := b.count + 1
    content := Function.update b.content (wrap PROT_MAX_BUFFER_LENGTH (b.pos + b.count)) c }

/-- As many bytes wait as the buffer counts. -/
@[simp] theorem Buf.length_pending (b : Buf) : b.pending.length = b.count := by
  simp [Buf.pending]

/-- One byte more, where there is room. -/
theorem Buf.Ring.push {b : Buf} (h : b.Ring) (hc : b.count < PROT_MAX_BUFFER_LENGTH) (c : UInt8) :
    (b.push c).Ring := ⟨h.pos_lt, hc⟩

/-- It waits behind the others. -/
theorem Buf.Ring.pending_push {b : Buf} (h : b.Ring) (hc : b.count < PROT_MAX_BUFFER_LENGTH)
    (c : UInt8) : (b.push c).pending = b.pending ++ [c] := by
  have hp := h.pos_lt
  unfold Buf.pending Buf.push
  rw [wrap_eq_mod (by omega)]
  exact ringCells_push _ _ _ _ _ hc

/-- A full buffer takes no byte. -/
theorem bufPutCar_full {b : Buf} (h : b.count ≥ PROT_MAX_BUFFER_LENGTH) (c : UInt8) :
    bufPutCar b c = (-ECANCELED, b) := if_pos h

/-- Any other one takes it. -/
theorem bufPutCar_room {b : Buf} (h : b.count < PROT_MAX_BUFFER_LENGTH) (c : UInt8) :
    bufPutCar b c = (0, b.push c) := by
  rw [bufPutCar, if_neg (by omega), Nat.add_comm b.count]
  rfl

/-- The cursor of `buf_put_string` on a ring buffer. -/
def Buf.cursor (b : Buf) : PutCursor :=
  ⟨b.content, wrap PROT_MAX_BUFFER_LENGTH (b.pos + b.count), PROT_MAX_BUFFER_LENGTH - b.count⟩

/-- Storing at the cursor pushes a byte, or fails when the ring is full. -/
theorem Buf.Ring.store_cursor {b : Buf} (h : b.Ring) (c : UInt8) :
    b.cursor.store c =
      if b.count = PROT_MAX_BUFFER_LENGTH then none else some (b.push c).cursor := by
  have h1 := h.pos_lt
  have h2 := h.count_le
  unfold PutCursor.store
  by_cases hfull : b.count = PROT_MAX_BUFFER_LENGTH
  · rw [if_pos hfull, if_pos (by simp only [Buf.cursor]; omega)]
  · rw [if_neg hfull, if_neg (by simp only [Buf.cursor]; omega)]
    simp only [Buf.cursor, Buf.push, Option.some.injEq, PutCursor.mk.injEq, true_and]
    constructor
    · unfold wrap
      split <;> split <;> split <;> omega
    · omega

/-- Bytes are stored one part after the other, up to the first that has no room. -/
theorem storeAll_append (a b : List UInt8) (k : PutCursor) :
    k.storeAll (a ++ b) =
      match k.storeAll a with
      | (true, k) => k.storeAll b
      | (false, k) => (false, k) := by
  induction a generalizing k with
  | nil => rfl
  | cons c a ih =>
    simp only [List.cons_append, PutCursor.storeAll]
    cases k.store c with
    | none => rfl
    | some k => exact ih k

/-- The loop of `buf_put_string` stores the encoded string. -/
theorem putLoop_eq (s : List UInt8) (k : PutCursor) :
    putLoop s k = k.storeAll (protMarks.encodeField s) := by
  induction s generalizing k with
  | nil => rfl
  | cons c s ih =>
    simp only [putLoop, putEscape_eq, ih]
    rw [Marks.encodeField, storeAll_append]
    rfl

/-- Storing a text at the cursor of a ring appends some `v`: the text when there is room for
it, and otherwise some bytes that the caller forgets. -/
theorem Buf.Ring.storeAll_cursor (w : List UInt8) {b : Buf} (h : b.Ring) :
    ∃ (b' : Buf) (v : List UInt8), b'.Ring ∧ b'.pos = b.pos ∧ b'.pending = b.pending ++ v ∧
      ((b.count + w.length ≤ PROT_MAX_BUFFER_LENGTH ∧ v = w ∧
          b.cursor.storeAll w = (true, b'.cursor)) ∨
        (PROT_MAX_BUFFER_LENGTH < b.count + w.length ∧
          b.cursor.storeAll w = (false, b'.cursor))) := by
  induction w generalizing b with
  | nil => exact ⟨b, [], h, rfl, by simp, .inl ⟨h.count_le, rfl, rfl⟩⟩
  | cons c w ih =>
    have hle := h.count_le
    simp only [PutCursor.storeAll, h.store_cursor]
    by_cases hfull : b.count = PROT_MAX_BUFFER_LENGTH
    · refine ⟨b, [], h, rfl, by simp, .inr ⟨?_, ?_⟩⟩
      · rw [List.length_cons]; omega
      · rw [if_pos hfull]
    · have hroom : b.count < PROT_MAX_BUFFER_LENGTH := by omega
      have hc : (b.push c).count = b.count + 1 := rfl
      rw [if_neg hfull]
      obtain ⟨b', v, h1, h2, h3, h4⟩ := ih (h.push hroom c)
      rw [h.pending_push hroom] at h3
      rw [hc] at h4
      refine ⟨b', c :: v, h1, h2, by simpa using h3, ?_⟩
      rw [List.length_cons]
      rcases h4 with ⟨h5, rfl, h6⟩ | ⟨h5, h6⟩
      · exact .inl ⟨by omega, rfl, h6⟩
      · exact .inr ⟨by omega, h6⟩

/-- `buf_put_string` appends the encoded string, or fails and keeps what the ring holds. -/
theorem bufPutString_spec {b : Buf} (h : b.Ring) (s : CStr) :
    ∃ b' : Buf, b'.Ring ∧ b'.pos = b.pos ∧
      ((b.count + (protMarks.encodeField s.bytes).length ≤ PROT_MAX_BUFFER_LENGTH ∧
          bufPutString b s = (0, b') ∧ b'.pending = b.pending ++ protMarks.encodeField s.bytes) ∨
        (PROT_MAX_BUFFER_LENGTH < b.count + (protMarks.encodeField s.bytes).length ∧
          bufPutString b s = (-ECANCELED, b') ∧ b'.pending = b.pending)) := by
  obtain ⟨b', w, h1, h2, h3, h4⟩ := h.storeAll_cursor (protMarks.encodeField s.bytes)
  rw [← putLoop_eq] at h4
  have hlen := congrArg List.length h3
  simp only [Buf.length_pending, List.length_append] at hlen
  rcases h4 with ⟨h5, rfl, h6⟩ | ⟨h5, h6⟩
  · refine ⟨b', h1, h2, .inl ⟨h5, ?_, h3⟩⟩
    change (match putLoop s.bytes b.cursor with | (true, k) => _ | (false, k) => _) = _
    rw [h6]
    have := h1.count_le
    simp only [Buf.cursor, Prod.mk.injEq, true_and]
    rw [← h2, Nat.sub_sub_self this]
  · refine ⟨{ b with content := b'.content }, ⟨h.pos_lt, h.count_le⟩, rfl, .inr ⟨h5, ?_, ?_⟩⟩
    · change (match putLoop s.bytes b.cursor with | (true, k) => _ | (false, k) => _) = _
      rw [h6]
      rfl
    · have htake := congrArg (List.take b.count) h3
      rw [List.take_left' (by simp), Buf.pending, h2, ringCells_take _ _ _ _ _ (by omega)] at htake
      exact htake

/-- No code of the output functions is positive. -/
theorem bufPutString_code (b : Buf) (string : CStr) :
    (bufPutString b string).1 = 0 ∨ (bufPutString b string).1 < 0 := by
  have hcancel : -ECANCELED < 0 := by decide
  simp only [bufPutString]
  split
  · exact Or.inl rfl
  · exact Or.inr hcancel

/-- Nor is that of a field. -/
theorem protPutField_code (p : Prot) (field : CStr) :
    (protPutField p field).1 = 0 ∨ (protPutField p field).1 < 0 := by
  rw [protPutField]
  generalize (if p.outfields ≠ 0 then bufPutCar p.outbuf PROT_FIELD_SEPARATOR
    else (0, p.outbuf)) = r
  obtain ⟨rc, outbuf⟩ := r
  simp only
  split
  · exact bufPutString_code outbuf field
  · rename_i hneg
    exact Or.inr (not_le.1 hneg)

/-! ## The composition of records -/

/-- The committed bytes `q` and the bytes `w` in composition of a handler. -/
structure OutState (p : Prot) (q w : List UInt8) : Prop where
  ring : p.outbuf.Ring
  pending : p.outbuf.pending = q ++ w
  committed : p.wrokcnt = q.length
  idle : p.outfields = 0 → w = []

/-- The parts of a handler that its output side leaves alone. -/
def SameInput (p p' : Prot) : Prop :=
  p'.inbuf = p.inbuf ∧ p'.fields = p.fields ∧ p'.allowEmpty = p.allowEmpty

/-- The input is the one that it is. -/
theorem SameInput.refl (p : Prot) : SameInput p p := ⟨rfl, rfl, rfl⟩

/-- It is the same over two steps. -/
theorem SameInput.trans {p p' p'' : Prot} (h : SameInput p p') (h' : SameInput p' p'') :
    SameInput p p'' :=
  ⟨h'.1.trans h.1, h'.2.1.trans h.2.1, h'.2.2.trans h.2.2⟩

/-- The buffer counts the committed bytes and those of the record under way. -/
theorem OutState.count_eq {p : Prot} {q w : List UInt8} (h : OutState p q w) :
    p.outbuf.count = q.length + w.length := by
  rw [← Buf.length_pending, h.pending, List.length_append]

/-- The bytes of a separator, written before each field but the first. -/
def fieldLead (p : Prot) : List UInt8 := if p.outfields = 0 then [] else [PROT_FIELD_SEPARATOR]

/-- `prot_put_field` adds an encoded field to the composition, or fails. -/
theorem protPutField_spec {p : Prot} {q w : List UInt8} (h : OutState p q w) (f : CStr) :
    ∃ (p' : Prot) (w' : List UInt8), OutState p' q w' ∧ SameInput p p' ∧ p'.outfields ≠ 0 ∧
      ((q.length + (w ++ fieldLead p ++ protMarks.encodeField f.bytes).length ≤
            PROT_MAX_BUFFER_LENGTH ∧
          protPutField p f = (0, p') ∧ w' = w ++ fieldLead p ++ protMarks.encodeField f.bytes) ∨
        (PROT_MAX_BUFFER_LENGTH <
            q.length + (w ++ fieldLead p ++ protMarks.encodeField f.bytes).length ∧
          protPutField p f = (-ECANCELED, p'))) := by
  have hc := h.count_eq
  -- the field itself, once its separator is in place
  have key : ∀ (b : Buf) (v : List UInt8), b.Ring → b.pending = q ++ v →
      ∃ (b' : Buf) (v' : List UInt8), b'.Ring ∧ b'.pending = q ++ v' ∧
      ((q.length + (v ++ protMarks.encodeField f.bytes).length ≤ PROT_MAX_BUFFER_LENGTH ∧
          bufPutString b f = (0, b') ∧ v' = v ++ protMarks.encodeField f.bytes) ∨
        (PROT_MAX_BUFFER_LENGTH < q.length + (v ++ protMarks.encodeField f.bytes).length ∧
          bufPutString b f = (-ECANCELED, b'))) := by
    intro b v hb hv
    have hbc : b.count = q.length + v.length := by
      rw [← Buf.length_pending, hv, List.length_append]
    rw [List.length_append, ← Nat.add_assoc, ← hbc]
    obtain ⟨b', h1, h2, ⟨h3, h4, h5⟩ | ⟨h3, h4, h5⟩⟩ := bufPutString_spec hb f
    · exact ⟨b', _, h1, by rw [h5, hv, List.append_assoc], .inl ⟨h3, h4, rfl⟩⟩
    · exact ⟨b', v, h1, h5.trans hv, .inr ⟨h3, h4⟩⟩
  have hne : ∀ {w' : List UInt8}, p.outfields + 1 = 0 → w' = [] :=
    fun h' => absurd h' (Nat.succ_ne_zero _)
  unfold protPutField fieldLead
  by_cases h0 : p.outfields = 0
  · obtain ⟨b', w', h1, h2, h3⟩ := key p.outbuf w h.ring h.pending
    refine ⟨{ p with outbuf := b', outfields := p.outfields + 1 }, w',
      ⟨h1, h2, h.committed, hne⟩, ⟨rfl, rfl, rfl⟩, Nat.succ_ne_zero _, ?_⟩
    simp only [h0, ne_eq, not_true, if_false, if_true, List.append_nil, ge_iff_le, Int.le_refl]
    rcases h3 with ⟨h4, h5, h6⟩ | ⟨h4, h5⟩
    · exact .inl ⟨h4, by rw [h5], h6⟩
    · exact .inr ⟨h4, by rw [h5]⟩
  · simp only [h0, ne_eq, not_false_iff, if_true, if_false]
    rcases Nat.lt_or_ge p.outbuf.count PROT_MAX_BUFFER_LENGTH with hroom | hfull
    · obtain ⟨b', w', h1, h2, h3⟩ :=
        key (p.outbuf.push PROT_FIELD_SEPARATOR) (w ++ [PROT_FIELD_SEPARATOR])
          (h.ring.push hroom _) (by rw [h.ring.pending_push hroom, h.pending, List.append_assoc])
      refine ⟨{ p with outbuf := b', outfields := p.outfields + 1 }, w',
        ⟨h1, h2, h.committed, hne⟩, ⟨rfl, rfl, rfl⟩, Nat.succ_ne_zero _, ?_⟩
      simp only [bufPutCar_room hroom, ge_iff_le, Int.le_refl, if_true]
      rcases h3 with ⟨h4, h5, h6⟩ | ⟨h4, h5⟩
      · exact .inl ⟨h4, by rw [h5], h6⟩
      · exact .inr ⟨h4, by rw [h5]⟩
    · refine ⟨{ p with outfields := p.outfields + 1 }, w,
        ⟨h.ring, h.pending, h.committed, hne⟩,
        ⟨rfl, rfl, rfl⟩, Nat.succ_ne_zero _, .inr ⟨?_, ?_⟩⟩
      · simp only [List.length_append, List.length_cons]; omega
      · rw [bufPutCar_full hfull]
        simp [ECANCELED]

/-- The text of the fields that follow in a composition. -/
def fieldsText (p : Prot) (fs : List CStr) : List UInt8 :=
  fieldLead p ++ protMarks.encodeFields (fs.map CStr.bytes)

/-- `prot_put_fields` adds encoded fields to the composition, or fails. -/
theorem protPutFields_spec : ∀ (fs : List CStr) {p : Prot} {q w : List UInt8}, fs ≠ [] →
    OutState p q w → ∃ (p' : Prot) (w' : List UInt8), OutState p' q w' ∧ SameInput p p' ∧
      p'.outfields ≠ 0 ∧
      ((q.length + (w ++ fieldsText p fs).length ≤ PROT_MAX_BUFFER_LENGTH ∧
          protPutFields p fs = (0, p') ∧ w' = w ++ fieldsText p fs) ∨
        (PROT_MAX_BUFFER_LENGTH < q.length + (w ++ fieldsText p fs).length ∧
          protPutFields p fs = (-ECANCELED, p')))
  | [], _, _, _, h, _ => absurd rfl h
  | [f], p, q, w, _, h => by
    obtain ⟨p', w', h1, h2, h3, h4⟩ := protPutField_spec h f
    refine ⟨p', w', h1, h2, h3, ?_⟩
    have ht : w ++ fieldsText p [f] = w ++ fieldLead p ++ protMarks.encodeField f.bytes := by
      simp [fieldsText, Marks.encodeFields, List.intercalate]
    rw [ht]
    rcases h4 with ⟨h5, h6, h7⟩ | ⟨h5, h6⟩
    · exact .inl ⟨h5, by simp [protPutFields, h6], h7⟩
    · exact .inr ⟨h5, by simp [protPutFields, h6]⟩
  | f :: g :: fs, p, q, w, _, h => by
    obtain ⟨p₁, w₁, h1, h2, h3, h4⟩ := protPutField_spec h f
    have ht : w ++ fieldsText p (f :: g :: fs) = w ++ fieldLead p ++
        protMarks.encodeField f.bytes ++ fieldsText p₁ (g :: fs) := by
      simp [fieldsText, Marks.encodeFields_cons_cons, fieldLead, h3, protMarks]
    rw [ht]
    rcases h4 with ⟨h5, h6, rfl⟩ | ⟨h5, h6⟩
    · obtain ⟨p', w', g1, g2, g3, g4⟩ := protPutFields_spec (g :: fs) (List.cons_ne_nil _ _) h1
      refine ⟨p', w', g1, h2.trans g2, g3, ?_⟩
      have he : protPutFields p (f :: g :: fs) = protPutFields p₁ (g :: fs) := by
        rw [protPutFields, h6]
        simp
      rwa [he]
    · refine ⟨p₁, w₁, h1, h2, h3, .inr ⟨?_, ?_⟩⟩
      · rw [List.length_append]; omega
      · rw [protPutFields, h6]
        simp [ECANCELED]

/-- A handler with no record in composition and empty records refused. -/
structure OutIdle (p : Prot) (q : List UInt8) : Prop extends OutState p q [] where
  no_fields : p.outfields = 0
  no_empty : p.allowEmpty = false

/-- A created handler has emitted nothing. -/
theorem outIdle_protReset (mem : ProtMem) : OutIdle (protReset mem) [] where
  ring := ⟨(by decide : 0 < PROT_MAX_BUFFER_LENGTH), Nat.zero_le _⟩
  pending := rfl
  committed := rfl
  idle := fun _ => rfl
  no_fields := rfl
  no_empty := rfl

/-- `prot_put_cancel` forgets the composition. -/
theorem protPutCancel_spec {p : Prot} {q w : List UInt8} (h : OutState p q w) :
    OutState (protPutCancel p) q [] ∧ (protPutCancel p).outfields = 0 ∧
      SameInput p (protPutCancel p) := by
  unfold protPutCancel
  split
  · refine ⟨⟨⟨h.ring.pos_lt, ?_⟩, ?_, h.committed, fun _ => rfl⟩, rfl, ⟨rfl, rfl, rfl⟩⟩
    · have := h.ring.count_le
      have := h.count_eq
      have := h.committed
      simp only
      omega
    · have htake := congrArg (List.take p.wrokcnt) h.pending
      rw [h.committed, List.take_left, Buf.pending,
        ringCells_take _ _ _ _ _ (by rw [h.count_eq]; omega)] at htake
      rw [List.append_nil, ← htake, ← h.committed]
      rfl
  · rename_i h0
    simp only [ne_eq, not_not] at h0
    have := h.idle h0
    subst this
    exact ⟨h, h0, .refl p⟩

/-- `prot_put_end` commits the composition, or fails. -/
theorem protPutEnd_spec {p : Prot} {q w : List UInt8} (h : OutState p q w)
    (h0 : p.outfields ≠ 0 ∨ p.allowEmpty = true) :
    (q.length + (w ++ [PROT_RECORD_SEPARATOR]).length ≤ PROT_MAX_BUFFER_LENGTH ∧
        ∃ p', protPutEnd p = (0, p') ∧ OutState p' (q ++ (w ++ [PROT_RECORD_SEPARATOR])) [] ∧
          p'.outfields = 0 ∧ SameInput p p') ∨
      (PROT_MAX_BUFFER_LENGTH < q.length + (w ++ [PROT_RECORD_SEPARATOR]).length ∧
        protPutEnd p = (-ECANCELED, p)) := by
  have hc := h.count_eq
  rcases Nat.lt_or_ge p.outbuf.count PROT_MAX_BUFFER_LENGTH with hroom | hfull
  · refine .inl ⟨by simp only [List.length_append, List.length_cons, List.length_nil]; omega, ?_⟩
    have hp := h.ring.pending_push hroom PROT_RECORD_SEPARATOR
    rw [h.pending] at hp
    refine ⟨{ p with
      outbuf := p.outbuf.push PROT_RECORD_SEPARATOR,
      wrokcnt := (p.outbuf.push PROT_RECORD_SEPARATOR).count, outfields := 0 },
      by simp only [protPutEnd, if_pos h0, bufPutCar_room hroom, if_true],
      ⟨h.ring.push hroom _, by rw [hp]; simp, ?_, fun _ => rfl⟩, rfl, ⟨rfl, rfl, rfl⟩⟩
    simp only [Buf.push, List.length_append, List.length_cons, List.length_nil]
    omega
  · refine .inr ⟨by simp only [List.length_append, List.length_cons, List.length_nil]; omega, ?_⟩
    have hne : ¬ -ECANCELED = 0 := by decide
    simp only [protPutEnd, if_pos h0, bufPutCar_full hfull, if_neg hne]

/-- **`prot_put` is atomic.** It commits the whole encoded record when there is room for it, and
leaves the committed bytes as they were when there is not. -/
theorem protPut_spec {p : Prot} {q : List UInt8} (h : OutIdle p q) {fs : List CStr}
    (hfs : fs ≠ []) :
    (q.length + (encode fs).length ≤ PROT_MAX_BUFFER_LENGTH ∧
        ∃ p', protPut p fs = (0, p') ∧ OutIdle p' (q ++ encode fs) ∧ SameInput p p') ∨
      (PROT_MAX_BUFFER_LENGTH < q.length + (encode fs).length ∧
        ∃ p', protPut p fs = (-ECANCELED, p') ∧ OutIdle p' q ∧ SameInput p p') := by
  have ht : fieldsText p fs = protMarks.encodeFields (fs.map CStr.bytes) := by
    simp [fieldsText, fieldLead, h.no_fields]
  have he : encode fs = fieldsText p fs ++ [PROT_RECORD_SEPARATOR] := by rw [ht]; rfl
  obtain ⟨p₁, w, h1, h2, h3, h4⟩ := protPutFields_spec fs hfs h.toOutState
  rw [List.nil_append] at h4
  -- the two ways to fail both end in a cancellation
  have cancel : ∀ p₂ w₂, OutState p₂ q w₂ → SameInput p p₂ →
      OutIdle (protPutCancel p₂) q ∧ SameInput p (protPutCancel p₂) := by
    intro p₂ w₂ hs hi
    obtain ⟨c1, c2, c3⟩ := protPutCancel_spec hs
    have hi' := hi.trans c3
    exact ⟨⟨c1, c2, hi'.2.2.trans h.no_empty⟩, hi'⟩
  rcases h4 with ⟨h5, h6, rfl⟩ | ⟨h5, h6⟩
  · rcases protPutEnd_spec h1 (.inl h3) with ⟨h7, p', h8, h9, h10, h11⟩ | ⟨h7, h8⟩
    · have hi := h2.trans h11
      refine .inl ⟨by rwa [he], p', ?_, ⟨by rwa [he], h10, hi.2.2.trans h.no_empty⟩, hi⟩
      simp [protPut, h6, h8]
    · refine .inr ⟨by rwa [he], protPutCancel p₁, ?_, cancel p₁ _ h1 h2⟩
      simp [protPut, h6, h8, ECANCELED]
  · refine .inr ⟨?_, protPutCancel p₁, ?_, cancel p₁ _ h1 h2⟩
    · rw [he, List.length_append]; omega
    · simp [protPut, h6, ECANCELED]

/-! ## Writing -/

/-- The `iovec` holds the first bytes of the ring. -/
theorem bufIovec_eq {b : Buf} (h : b.Ring) {n : Nat} (hn : n ≤ b.count) :
    bufIovec b n = b.pending.take n := by
  have h1 := h.pos_lt
  have h2 := h.count_le
  rw [Buf.pending, ringCells_take _ _ _ _ _ hn]
  unfold bufIovec
  split
  · exact (ringCells_one _ ‹_›).symm
  · exact (ringCells_two _ h1 (by omega) (by omega)).symm

/-- `prot_write` transfers bytes from the front of the committed ones. -/
theorem protWrite_spec {p : Prot} {q w : List UInt8} (h : OutState p q w) (n : Nat)
    (hq : q ≠ []) :
    ∃ p', protWrite p (.written n) = (((min n q.length : Nat) : Int), p', q.take n) ∧
      OutState p' (q.drop n) w ∧ SameInput p p' ∧ p'.outfields = p.outfields := by
  have hc := h.count_eq
  have h1 := h.ring.pos_lt
  have h2 := h.ring.count_le
  have hpos : 0 < q.length := List.length_pos_of_ne_nil hq
  have hcount : min (min p.wrokcnt p.outbuf.count) INT_MAX = q.length := by
    have hi : PROT_MAX_BUFFER_LENGTH ≤ INT_MAX := by decide
    rw [h.committed]
    omega
  have hio : (bufIovec p.outbuf q.length).take (min n q.length) = q.take n := by
    rw [bufIovec_eq h.ring (by omega), h.pending, List.take_left, ← List.take_take,
      List.take_length]
  have hb : bufWriteLength p.outbuf p.wrokcnt (.written n) = (((min n q.length : Nat) : Int),
      { p.outbuf with
        count := p.outbuf.count - min n q.length
        pos := wrap PROT_MAX_BUFFER_LENGTH (p.outbuf.pos + min n q.length) }, q.take n) := by
    simp only [bufWriteLength, hcount, if_neg (Nat.ne_of_gt hpos), hio]
  simp only [protWrite, hb]
  refine ⟨_, rfl, ⟨⟨wrap_lt ?_, ?_⟩, ?_, ?_, h.idle⟩, ⟨rfl, rfl, rfl⟩, rfl⟩
  · omega
  · simp only; omega
  · have hd := ringCells_drop PROT_MAX_BUFFER_LENGTH p.outbuf.content p.outbuf.pos
      p.outbuf.count (min n q.length)
    have hp : ringCells PROT_MAX_BUFFER_LENGTH p.outbuf.content p.outbuf.pos p.outbuf.count =
        q ++ w := h.pending
    rw [hp, List.drop_append_of_le_length (by omega)] at hd
    simp only [Buf.pending]
    rw [wrap_eq_mod (by omega), ← hd]
    congr 1
    rcases Nat.le_total n q.length with hn | hn
    · rw [Nat.min_eq_left hn]
    · rw [Nat.min_eq_right hn, List.drop_length, List.drop_of_length_le hn]
  · simp only [List.length_drop, h.committed]
    split <;> omega

/-- A failed `prot_write` changes nothing. -/
theorem protWrite_error {p : Prot} (e : Errno) :
    protWrite p (.error e) = (if p.wrokcnt = 0 ∨ p.outbuf.count = 0 then -ENODATA else -e.val,
      p, []) := by
  have he := e.pos
  have hpos : ¬ (-e.val > 0) := by omega
  have hn : ¬ (-ENODATA > 0) := by decide
  have hi : INT_MAX ≠ 0 := by decide
  unfold protWrite bufWriteLength
  by_cases h : p.wrokcnt = 0 ∨ p.outbuf.count = 0
  · have h0 : min (min p.wrokcnt p.outbuf.count) INT_MAX = 0 := by omega
    simp only [h0, if_true, if_pos h, if_neg hn]
  · have h0 : min (min p.wrokcnt p.outbuf.count) INT_MAX ≠ 0 := by omega
    simp only [if_neg h0, if_neg h, if_neg hpos]

/-- `prot_write` with nothing committed changes nothing. -/
theorem protWrite_nodata {p : Prot} {w : List UInt8} (h : OutState p [] w) (a : WriteAnswer) :
    protWrite p a = (-ENODATA, p, []) := by
  have h0 : min (min p.wrokcnt p.outbuf.count) INT_MAX = 0 := by
    have := h.committed
    simp only [List.length_nil] at this
    omega
  have hn : ¬ (-ENODATA > 0) := by decide
  simp only [protWrite, bufWriteLength, h0, if_true, if_neg hn]

end SecLsmManager
