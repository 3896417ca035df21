import SecLsmManager.Protocol.Composition

/-!
# The variadic `prot_putx`

`prot_putx` puts the fields of its list and ends the record. It cancels the record when a field
has not found room, but not when the record separator has not: then the fields stay in
composition. That happens exactly when the fields fill the ring (`FillsRing`).
-/

namespace SecLsmManager

open Lib

/-- The loop of `prot_putx`. -/
def putxLoop : Prot → List CStr → Int × Prot
  | prot, [] => (0, prot)
  | prot, p :: l =>
    let (rc, prot) := protPutField prot p
    if rc = 0 then putxLoop prot l else (rc, prot)

def protPutx (prot : Prot) (fields : List CStr) : Int × Prot :=
  let (rc, prot) := putxLoop prot fields
  if rc ≠ 0 then (rc, protPutCancel prot) else protPutEnd prot

/-- No record is in composition. -/
structure NoRecord (p : Prot) : Prop where
  ring : p.outbuf.Ring
  committed : p.wrokcnt = p.outbuf.count
  no_fields : p.outfields = 0

/-- The handler after some calls to `prot_write`. -/
def protWrites (p : Prot) (answers : List WriteAnswer) : Prot :=
  answers.foldl (fun p answer => (protWrite p answer).2.1) p

/-- What `p'` holds and has room for is what `p` does, without a record in composition: once it is
flushed, a `prot_put` sends its own record. -/
structure OutAsBefore (p p' : Prot) : Prop where
  offer : protOffer p' = protOffer p
  committed : p'.wrokcnt = p.wrokcnt
  room : p'.outbuf.count = p.outbuf.count
  no_fields : p'.outfields = 0
  next : ∀ answers fields, (protWrites p' answers).wrokcnt = 0 →
    (protPut (protWrites p' answers) fields).1 = 0 →
    protOffer (protPut (protWrites p' answers) fields).2 =
      (endedRecords (protWrites p' answers) fields).flatMap encode

/-- A call that returns `-ECANCELED` leaves the output as before it. -/
def PutxAtomic (p : Prot) (fields : List CStr) : Prop :=
  (protPutx p fields).1 = -ECANCELED → OutAsBefore p (protPutx p fields).2

/-- The fields take exactly the room that the committed bytes leave. -/
def FillsRing (p : Prot) (fields : List CStr) : Prop :=
  fields ≠ [] ∧ p.wrokcnt + (compositionText fields).length = PROT_MAX_BUFFER_LENGTH

/-- The output between two records. -/
theorem NoRecord.outState {p : Prot} (h : NoRecord p) : OutState p p.outbuf.pending [] where
  ring := h.ring
  pending := (List.append_nil _).symm
  committed := by rw [Buf.length_pending, h.committed]
  idle := fun _ => rfl

/-! ## Writes between two records -/

/-- A write keeps it so. -/
theorem protWrite_outState {p : Prot} {q : List UInt8} (h : OutState p q [])
    (h0 : p.outfields = 0) (answer : WriteAnswer) :
    ∃ q', OutState (protWrite p answer).2.1 q' [] ∧ (protWrite p answer).2.1.outfields = 0 := by
  cases answer with
  | error e =>
    rw [protWrite_error]
    exact ⟨q, h, h0⟩
  | written n =>
    by_cases hq : q = []
    · subst hq
      rw [protWrite_nodata h]
      exact ⟨[], h, h0⟩
    · obtain ⟨p', h1, h2, -, h3⟩ := protWrite_spec h n hq
      rw [h1]
      exact ⟨q.drop n, h2, h3.trans h0⟩

/-- So do any number of writes. -/
theorem protWrites_outState {p : Prot} {q : List UInt8} (h : OutState p q [])
    (h0 : p.outfields = 0) (answers : List WriteAnswer) :
    ∃ q', OutState (protWrites p answers) q' [] ∧ (protWrites p answers).outfields = 0 := by
  induction answers generalizing p q with
  | nil => exact ⟨q, h, h0⟩
  | cons answer answers ih =>
    obtain ⟨q', h1, h2⟩ := protWrite_outState h h0 answer
    exact ih h1 h2

/-- A `prot_put` on an empty queue is all that is offered next. -/
theorem protPut_flushed {p : Prot} {q : List UInt8} (h : OutState p q []) (h0 : p.outfields = 0)
    (hflushed : p.wrokcnt = 0) {fields : List CStr} (hrc : (protPut p fields).1 = 0) :
    protOffer (protPut p fields).2 = (endedRecords p fields).flatMap encode := by
  have hq : q = [] := List.length_eq_zero_iff.1 (h.committed.symm.trans hflushed)
  subst hq
  have hne : ¬ -ECANCELED = 0 := by decide
  obtain ⟨p', -, -, ⟨h1, h2⟩ | ⟨h1, -⟩⟩ :=
    @protPut_composes p [] [] fields h (iff_of_true h0 rfl)
  · rw [h1]
    exact protOffer_eq h2
  · rw [h1] at hrc
    exact absurd hrc hne

/-- Two outputs that offer the same between two records behave the same. -/
theorem OutState.asBefore {p p' : Prot} {q : List UInt8} (h : OutState p q [])
    (h' : OutState p' q []) (h0 : p'.outfields = 0) : OutAsBefore p p' where
  offer := by rw [protOffer_eq h', protOffer_eq h]
  committed := by rw [h'.committed, h.committed]
  room := by rw [h'.count_eq, h.count_eq]
  no_fields := h0
  next := by
    intro answers fields hflushed hrc
    obtain ⟨q', h1, h2⟩ := protWrites_outState h' h0 answers
    exact protPut_flushed h1 h2 hflushed hrc

/-! ## Atomicity -/

/-- The loop puts the fields as `prot_put_fields` does. -/
theorem putxLoop_eq (p : Prot) (fields : List CStr) :
    putxLoop p fields = protPutFields p fields := by
  induction fields generalizing p with
  | nil => rfl
  | cons field fields ih =>
    rw [putxLoop, protPutFields]
    obtain hrc | hrc := protPutField_code p field
    · have hge : (protPutField p field).1 ≥ 0 := ge_of_eq hrc
      simp only [if_pos hrc, hge, true_and]
      cases fields with
      | nil => rw [if_neg (fun h => h rfl), putxLoop, ← hrc]
      | cons f fs =>
        rw [if_pos (List.cons_ne_nil f fs)]
        exact ih _
    · have hneg : ¬ (protPutField p field).1 ≥ 0 := not_le.2 hrc
      simp only [if_neg (ne_of_lt hrc), hneg, false_and, if_false]

/-- **When `prot_putx` is atomic.** It is, but when the fields fill the ring: then the record
separator finds no room, and the fields stay in composition. -/
theorem protPutx_atomic_iff (p : Prot) (fields : List CStr) (h : NoRecord p) :
    PutxAtomic p fields ↔ ¬ FillsRing p fields := by
  have hstate := h.outState
  have hne : ¬ -ECANCELED = 0 := by decide
  have hlen : p.outbuf.pending.length = p.wrokcnt := hstate.committed.symm
  rw [PutxAtomic, protPutx, putxLoop_eq]
  by_cases hfields : fields = []
  · -- without a field there is at most the separator, and nothing to cancel
    subst hfields
    refine iff_of_true ?_ (fun hfill => hfill.1 rfl)
    simp only [protPutFields, ne_eq, not_true, if_false]
    intro hrc
    by_cases hends : p.outfields ≠ 0 ∨ p.allowEmpty = true
    · obtain ⟨-, p', h1, -⟩ | ⟨-, h1⟩ := protPutEnd_spec hstate hends
      · rw [h1] at hrc
        cases hrc
      · rw [h1]
        exact hstate.asBefore hstate h.no_fields
    · rw [protPutEnd, if_neg hends]
      exact hstate.asBefore hstate h.no_fields
  · have htext : fieldsText p fields = compositionText fields := by
      rw [fieldsText, fieldLead, if_pos h.no_fields]
      rfl
    obtain ⟨p₁, w, h1, -, h2, ⟨hfit, hput, rfl⟩ | ⟨hfull, hput⟩⟩ :=
      protPutFields_spec fields hfields hstate
    · rw [List.nil_append, htext, hlen] at hfit
      simp only [hput, ne_eq, not_true, if_false]
      obtain ⟨hroom, p', h3, -⟩ | ⟨hnoroom, h3⟩ := protPutEnd_spec h1 (.inl h2)
      · rw [List.nil_append, htext, hlen, List.length_append, List.length_singleton] at hroom
        rw [h3]
        exact iff_of_true (fun hrc => absurd hrc.symm hne) fun hfill => by
          have := hfill.2
          omega
      · rw [List.nil_append, htext, hlen, List.length_append, List.length_singleton] at hnoroom
        rw [h3]
        refine iff_of_false (fun hatomic => h2 (hatomic rfl).no_fields) ?_
        exact not_not_intro ⟨hfields, by omega⟩
    · rw [List.nil_append, htext, hlen] at hfull
      simp only [hput, ne_eq, hne, not_false_eq_true, if_true]
      obtain ⟨h3, h4, -⟩ := protPutCancel_spec h1
      exact iff_of_true (fun _ => hstate.asBefore h3 h4) fun hfill => by
        have := hfill.2
        omega

/-- A handler that has `n` bytes to write. -/
def Prot.holding (n : Nat) : Prot :=
  let prot := protReset ⟨fun _ => 0, fun _ => 0, fun _ => 0⟩
  { prot with outbuf := ⟨0, n, fun _ => 97⟩, wrokcnt := n }

theorem Prot.noRecord_holding {n : Nat} (hn : n ≤ PROT_MAX_BUFFER_LENGTH) :
    NoRecord (Prot.holding n) :=
  ⟨⟨(by decide : 0 < PROT_MAX_BUFFER_LENGTH), hn⟩, rfl, rfl⟩

/-- With 1998 bytes in the ring, `prot_putx` of the fields `b` and `c` is atomic. -/
theorem protPutx_atomic_two : PutxAtomic (Prot.holding 1998) [.lit "b", .lit "c"] :=
  (protPutx_atomic_iff (Prot.holding 1998) [.lit "b", .lit "c"]
    (Prot.noRecord_holding (by decide))).2 fun hfill => absurd hfill.2 (by decide)

/-- With 1999 bytes in the ring, the field `b` finds room and the record separator does not. -/
theorem protPutx_keeps_field :
    ¬ ∀ (p : Prot) (fields : List CStr), NoRecord p → PutxAtomic p fields := by
  intro h
  have hnot := (protPutx_atomic_iff (Prot.holding 1999) [.lit "b"]
    (Prot.noRecord_holding (by decide))).1 (h _ _ (Prot.noRecord_holding (by decide)))
  exact hnot ⟨List.cons_ne_nil _ _, by decide⟩

end SecLsmManager
