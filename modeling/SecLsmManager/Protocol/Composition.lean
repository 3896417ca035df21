import SecLsmManager.Protocol.Output

/-!
# Composing records while bytes are written

Any sequence of calls to the output side of a handler, by a caller that cancels a record once a
call for it has failed. `Composer` is the handler with what its caller knows of it. Whatever the
writes transfer in between, the bytes that were transferred followed by those that are offered next
are the records that were ended (`transferred_records`).
-/

namespace SecLsmManager

open Lib

/-- A call to the output side. -/
inductive OutOp
  | putField (field : CStr)
  | putFields (fields : List CStr)
  | putEnd
  | putCancel
  | put (fields : List CStr)
  | write (answer : WriteAnswer)

/-- A handler, the fields that were put in the record in composition, the records that were ended,
whether a call has failed that is still to be cancelled, and the bytes that were transferred. -/
structure Composer where
  prot : Prot
  fields : List CStr
  records : List (List CStr)
  failed : Bool
  written : List UInt8

/-- The records that `prot_put_end` ends: without a field there is none, unless empty ones are
allowed. -/
def endedRecords (p : Prot) (fields : List CStr) : List (List CStr) :=
  if fields ≠ [] ∨ p.allowEmpty then [fields] else []

/-- A call, and what its caller learns from its code. -/
def Composer.step (c : Composer) : OutOp → Composer
  | .putField field =>
    let (rc, prot) := protPutField c.prot field
    if rc = 0 then { c with prot, fields := c.fields ++ [field] }
    else { c with prot, failed := true }
  | .putFields fields =>
    let (rc, prot) := protPutFields c.prot fields
    if rc = 0 then { c with prot, fields := c.fields ++ fields }
    else { c with prot, failed := true }
  | .putEnd =>
    let (rc, prot) := protPutEnd c.prot
    if rc = 0 then
      { c with prot, fields := [], records := c.records ++ endedRecords c.prot c.fields }
    else { c with prot, failed := true }
  | .putCancel => { c with prot := protPutCancel c.prot, fields := [], failed := false }
  | .put fields =>
    let (rc, prot) := protPut c.prot fields
    if rc = 0 then
      { c with
        prot, fields := [], records := c.records ++ endedRecords c.prot (c.fields ++ fields) }
    else { c with prot, fields := [] }
  | .write answer =>
    let (_, prot, bytes) := protWrite c.prot answer
    { c with prot, written := c.written ++ bytes }

/-- What may follow a failed call, before it is cancelled. -/
def Composer.Allows (c : Composer) (op : OutOp) : Prop :=
  c.failed = true → op = .putCancel ∨ ∃ answer, op = .write answer

/-- A handler just created, with empty records allowed or not. -/
def Composer.init (mem : ProtMem) (allowEmpty : Bool) : Composer :=
  ⟨{ protReset mem with allowEmpty }, [], [], false, []⟩

/-- What the calls lead to. -/
inductive Composer.Reached (mem : ProtMem) (allowEmpty : Bool) : Composer → Prop
  | init : Reached mem allowEmpty (.init mem allowEmpty)
  | step {c : Composer} {op : OutOp} : Reached mem allowEmpty c → c.Allows op →
      Reached mem allowEmpty (c.step op)

/-- The bytes that `prot_write` gives to `writev`. -/
def protOffer (prot : Prot) : List UInt8 :=
  bufIovec prot.outbuf (min (min prot.wrokcnt prot.outbuf.count) INT_MAX)

/-! ## The invariant -/

/-- The text of a composition. -/
def compositionText (fields : List CStr) : List UInt8 :=
  protMarks.encodeFields (fields.map CStr.bytes)

/-- The handler holds the rest of the ended records, then the text of the record in composition;
after a failure the latter is whatever the calls had time to store. -/
structure Composer.Inv (c : Composer) (q w : List UInt8) : Prop where
  state : OutState c.prot q w
  records : c.written ++ q = c.records.flatMap encode
  text : c.failed = false → w = compositionText c.fields
  fields : c.failed = false → (c.prot.outfields = 0 ↔ c.fields = [])

theorem compositionText_append {p : Prot} {fields more : List CStr}
    (hp : p.outfields = 0 ↔ fields = []) (hmore : more ≠ []) :
    compositionText fields ++ fieldsText p more = compositionText (fields ++ more) := by
  unfold compositionText fieldsText fieldLead
  by_cases h0 : p.outfields = 0
  · rw [if_pos h0, hp.1 h0]
    rfl
  · have hne : fields ≠ [] := fun h => h0 (hp.2 h)
    rw [if_neg h0, List.map_append, Marks.encodeFields_append _ (by simpa using hne)
      (by simpa using hmore)]
    rfl

/-- Fields are added, or the composition is spoilt. -/
theorem protPutFields_composes {p : Prot} {q : List UInt8} {fields : List CStr} (more : List CStr)
    (h : OutState p q (compositionText fields)) (hp : p.outfields = 0 ↔ fields = []) :
    ∃ p', SameInput p p' ∧ ((protPutFields p more = (0, p') ∧
        OutState p' q (compositionText (fields ++ more)) ∧
        (p'.outfields = 0 ↔ fields ++ more = [])) ∨
      (protPutFields p more = (-ECANCELED, p') ∧ ∃ w, OutState p' q w)) := by
  by_cases hmore : more = []
  · subst hmore
    rw [List.append_nil]
    exact ⟨p, .refl p, .inl ⟨rfl, h, hp⟩⟩
  · obtain ⟨p', w', h1, h2, h3, ⟨-, h5, rfl⟩ | ⟨-, h5⟩⟩ := protPutFields_spec more hmore h
    · rw [compositionText_append hp hmore] at h1
      exact ⟨p', h2, .inl ⟨h5, h1, iff_of_false h3 (by simp [hmore])⟩⟩
    · exact ⟨p', h2, .inr ⟨h5, w', h1⟩⟩

/-- The composition is committed, or stays as it is for lack of room. -/
theorem protPutEnd_composes {p : Prot} {q : List UInt8} {fields : List CStr}
    (h : OutState p q (compositionText fields)) (hp : p.outfields = 0 ↔ fields = []) :
    (∃ p', protPutEnd p = (0, p') ∧ SameInput p p' ∧ p'.outfields = 0 ∧
        OutState p' (q ++ (endedRecords p fields).flatMap encode) []) ∨
      protPutEnd p = (-ECANCELED, p) := by
  by_cases hends : p.outfields ≠ 0 ∨ p.allowEmpty = true
  · have hrecord : endedRecords p fields = [fields] := by
      rw [endedRecords, if_pos (by rwa [ne_eq, ← hp])]
    obtain ⟨-, p', h1, h2, h3, h4⟩ | ⟨-, h1⟩ := protPutEnd_spec h hends
    · refine .inl ⟨p', h1, h4, h3, ?_⟩
      rw [hrecord]
      simpa [encode, Marks.encodeRecord, compositionText, protMarks] using h2
    · exact .inr h1
  · have hnone : protPutEnd p = (0, p) := if_neg hends
    rw [not_or, not_not] at hends
    have hfields := hp.1 hends.1
    have hrecord : endedRecords p fields = [] := by simp [endedRecords, hfields, hends.2]
    refine .inl ⟨p, hnone, .refl p, hends.1, ?_⟩
    rw [hrecord, List.flatMap_nil, List.append_nil]
    rw [hfields] at h
    exact h

/-- **`prot_put` on any composition**: all of the record is committed, or the record is
forgotten. -/
theorem protPut_composes {p : Prot} {q : List UInt8} {fields : List CStr} (more : List CStr)
    (h : OutState p q (compositionText fields)) (hp : p.outfields = 0 ↔ fields = []) :
    ∃ p', SameInput p p' ∧ p'.outfields = 0 ∧
      ((protPut p more = (0, p') ∧
          OutState p' (q ++ (endedRecords p (fields ++ more)).flatMap encode) []) ∨
        (protPut p more = (-ECANCELED, p') ∧ OutState p' q [])) := by
  have hne : ¬ -ECANCELED = 0 := by decide
  have cancel : ∀ p₂ w₂, OutState p₂ q w₂ → SameInput p p₂ →
      SameInput p (protPutCancel p₂) ∧ (protPutCancel p₂).outfields = 0 ∧
        OutState (protPutCancel p₂) q [] := by
    intro p₂ w₂ hs hi
    obtain ⟨c1, c2, c3⟩ := protPutCancel_spec hs
    exact ⟨hi.trans c3, c2, c1⟩
  obtain ⟨p₁, h1, ⟨h2, h3, h4⟩ | ⟨h2, w, h3⟩⟩ := protPutFields_composes more h hp
  · obtain ⟨p', g1, g2, g3, g4⟩ | g1 := protPutEnd_composes h3 h4
    · have hsame : endedRecords p₁ (fields ++ more) = endedRecords p (fields ++ more) := by
        rw [endedRecords, endedRecords, h1.2.2]
      rw [hsame] at g4
      refine ⟨p', h1.trans g2, g3, .inl ⟨?_, g4⟩⟩
      simp only [protPut, h2, g1, if_true, ne_eq, not_true_eq_false, if_false]
    · obtain ⟨c1, c2, c3⟩ := cancel p₁ _ h3 h1
      refine ⟨_, c1, c2, .inr ⟨?_, c3⟩⟩
      simp only [protPut, h2, g1, if_true, ne_eq, hne, not_false_eq_true]
  · obtain ⟨c1, c2, c3⟩ := cancel p₁ w h3 h1
    refine ⟨_, c1, c2, .inr ⟨?_, c3⟩⟩
    simp only [protPut, h2, hne, if_false, ne_eq, not_false_eq_true, if_true]

theorem protPutFields_singleton (p : Prot) (field : CStr) :
    protPutFields p [field] = protPutField p field := by
  simp [protPutFields]

/-- What follows from a call that adds fields, with the code `r.1` and the handler `r.2`. -/
theorem Composer.Inv.putFields {c : Composer} {q w : List UInt8} (h : c.Inv q w)
    (hfailed : c.failed = false) (fields : List CStr) :
    ∃ w', (c.step (.putFields fields)).Inv q w' := by
  have hne : ¬ -ECANCELED = 0 := by decide
  have hstate := h.state
  rw [h.text hfailed] at hstate
  obtain ⟨p', -, ⟨h1, h2, h3⟩ | ⟨h1, w', h2⟩⟩ :=
    protPutFields_composes fields hstate (h.fields hfailed)
  · simp only [Composer.step, h1, if_true]
    exact ⟨_, h2, h.records, fun _ => rfl, fun _ => h3⟩
  · simp only [Composer.step, h1, if_neg hne]
    exact ⟨w', h2, h.records, nofun, nofun⟩

/-- Each call keeps the invariant. -/
theorem Composer.Inv.step {c : Composer} {q w : List UInt8} (h : c.Inv q w) {op : OutOp}
    (hop : c.Allows op) : ∃ q' w', (c.step op).Inv q' w' := by
  have hne : ¬ -ECANCELED = 0 := by decide
  -- no call but these two follows a failure
  have hfailed : (¬ ∃ answer, op = .write answer) → op ≠ .putCancel → c.failed = false := by
    intro hwrite hcancel
    by_contra hf
    rcases hop (by simpa using hf) with rfl | hw
    · exact hcancel rfl
    · exact hwrite hw
  cases op with
  | putField field =>
    obtain ⟨w', hw'⟩ := h.putFields (hfailed (by simp) (by simp)) [field]
    simp only [Composer.step, protPutFields_singleton] at hw' ⊢
    exact ⟨q, w', hw'⟩
  | putFields fields =>
    obtain ⟨w', hw'⟩ := h.putFields (hfailed (by simp) (by simp)) fields
    exact ⟨q, w', hw'⟩
  | putEnd =>
    have hf := hfailed (by simp) (by simp)
    have hstate := h.state
    rw [h.text hf] at hstate
    obtain ⟨p', h1, -, h2, h3⟩ | h1 := protPutEnd_composes hstate (h.fields hf)
    · simp only [Composer.step, h1, if_true]
      refine ⟨_, [], h3, ?_, fun _ => rfl, fun _ => iff_of_true h2 rfl⟩
      rw [List.flatMap_append, ← h.records, List.append_assoc]
    · simp only [Composer.step, h1, if_neg hne]
      exact ⟨q, w, h.state, h.records, nofun, nofun⟩
  | putCancel =>
    obtain ⟨h1, h2, -⟩ := protPutCancel_spec h.state
    exact ⟨q, [], h1, h.records, fun _ => rfl, fun _ => iff_of_true h2 rfl⟩
  | put fields =>
    have hf := hfailed (by simp) (by simp)
    have hstate := h.state
    rw [h.text hf] at hstate
    obtain ⟨p', -, h1, ⟨h2, h3⟩ | ⟨h2, h3⟩⟩ :=
      protPut_composes fields hstate (h.fields hf)
    · simp only [Composer.step, h2, if_true]
      refine ⟨_, [], h3, ?_, fun _ => rfl, fun _ => iff_of_true h1 rfl⟩
      rw [List.flatMap_append, ← h.records, List.append_assoc]
    · simp only [Composer.step, h2, if_neg hne]
      exact ⟨q, [], h3, h.records, fun _ => rfl, fun _ => iff_of_true h1 rfl⟩
  | write answer =>
    cases answer with
    | error e =>
      simp only [Composer.step, protWrite_error, List.append_nil]
      exact ⟨q, w, h⟩
    | written n =>
      by_cases hq : q = []
      · subst hq
        simp only [Composer.step, protWrite_nodata h.state, List.append_nil]
        exact ⟨[], w, h⟩
      · obtain ⟨p', h1, h2, -, h3⟩ := protWrite_spec h.state n hq
        simp only [Composer.step, h1]
        refine ⟨q.drop n, w, h2, ?_, h.text, fun hf => ?_⟩
        · rw [List.append_assoc, List.take_append_drop]
          exact h.records
        · simp only [h3]
          exact h.fields hf

theorem Composer.Inv.init (mem : ProtMem) (allowEmpty : Bool) :
    (Composer.init mem allowEmpty).Inv [] [] where
  state := ⟨⟨(by decide : 0 < PROT_MAX_BUFFER_LENGTH), Nat.zero_le _⟩, rfl, rfl, fun _ => rfl⟩
  records := rfl
  text := fun _ => rfl
  fields := fun _ => iff_of_true rfl rfl

/-- The invariant holds after any calls. -/
theorem Composer.Reached.inv {mem : ProtMem} {allowEmpty : Bool} {c : Composer}
    (h : Composer.Reached mem allowEmpty c) : ∃ q w, c.Inv q w := by
  induction h with
  | init => exact ⟨[], [], .init mem allowEmpty⟩
  | step _ hop ih =>
    obtain ⟨q, w, hinv⟩ := ih
    exact hinv.step hop

/-- `prot_write` offers the committed bytes. -/
theorem protOffer_eq {p : Prot} {q w : List UInt8} (h : OutState p q w) : protOffer p = q := by
  have hcount := h.count_eq
  have hring := h.ring.count_le
  have hmin : min (min p.wrokcnt p.outbuf.count) INT_MAX = q.length := by
    have hi : PROT_MAX_BUFFER_LENGTH ≤ INT_MAX := by decide
    rw [h.committed]
    omega
  rw [protOffer, hmin, bufIovec_eq h.ring (by omega), h.pending, List.take_left]

/-- **Only committed records reach the wire.** After any calls, the bytes that were transferred
followed by those that the next write offers are the records that were ended, in order. A
`prot_put` of a whole record that is cancelled leaves the queue of committed bytes and the room as
they were. -/
theorem transferred_records (mem : ProtMem) (allowEmpty : Bool) (c : Composer)
    (h : Composer.Reached mem allowEmpty c) :
    c.written ++ protOffer c.prot = c.records.flatMap encode ∧
    ∀ fields, c.prot.outfields = 0 → (protPut c.prot fields).1 = -ECANCELED →
      let p' := (protPut c.prot fields).2
      protOffer p' = protOffer c.prot ∧ p'.wrokcnt = c.prot.wrokcnt ∧
        p'.outbuf.count = c.prot.outbuf.count ∧ p'.outfields = 0 := by
  obtain ⟨q, w, hinv⟩ := h.inv
  refine ⟨by rw [protOffer_eq hinv.state, hinv.records], ?_⟩
  intro fields h0 hrc
  have hstate := hinv.state
  have hw := hstate.idle h0
  subst hw
  obtain ⟨p', -, h1, ⟨h2, -⟩ | ⟨h2, h3⟩⟩ :=
    @protPut_composes _ _ [] fields hstate (iff_of_true h0 rfl)
  · have hne : ¬ (0 : Int) = -ECANCELED := by decide
    rw [h2] at hrc
    exact absurd hrc hne
  · simp only [h2]
    exact ⟨by rw [protOffer_eq h3, protOffer_eq hstate], by rw [h3.committed, hstate.committed],
      by rw [h3.count_eq, hstate.count_eq], h1⟩

/-- A record is cancelled in the middle, then another one is put. -/
theorem transferred_records_cancel :
    let c := (((Composer.init ⟨fun _ => 0, fun _ => 0, fun _ => 0⟩ false).step
      (.putField (.lit "a"))).step .putCancel).step (.put [.lit "b c"])
    c.written ++ protOffer c.prot = (CStr.lit "b\\ c\n").bytes ∧
      c.written ++ protOffer c.prot = c.records.flatMap encode := by
  refine ⟨by decide +kernel, (transferred_records ⟨fun _ => 0, fun _ => 0, fun _ => 0⟩ false _
    (.step (.step (.step .init ?_) ?_) ?_)).1⟩
  · exact fun h => absurd h (by decide +kernel)
  · exact fun h => absurd h (by decide +kernel)
  · exact fun h => absurd h (by decide +kernel)

end SecLsmManager
