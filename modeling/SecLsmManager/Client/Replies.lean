import SecLsmManager.Client.Client
import SecLsmManager.Protocol.Output

/-!
# What the client functions emit

`Puts c c' q q' rs` says that from `c` to `c'` the records `rs` were put, when `q` and `q'` are
the committed bytes of the handler: the bytes written and the committed ones grew together by the
encoding of `rs`. It composes, so that nothing above speaks of the ring. When the output channel
accepts, a flush leaves nothing committed and only a record that is too long is not put.
-/

namespace SecLsmManager

variable {σ : Type*}

/-- An answer of a channel that finally accepts: some bytes, or `EAGAIN` with a `poll` that
works. -/
def OutAnswer.Accepts (answer : OutAnswer) : Prop :=
  (∃ n, answer.write = .written n) ∨
    ∃ e, answer.write = .error e ∧ e.val = EAGAIN ∧ answer.poll = none

def Client.Accepting (c : Client σ) : Prop := ∀ answer ∈ c.writes, answer.Accepts

/-- `c'` is `c` but for the output. -/
structure Client.SameCore (c c' : Client σ) : Prop where
  context : c'.context = c.context
  version : c'.version = c.version
  invalid : c'.invalid = c.invalid
  connected : c'.connected = c.connected
  serverLog : c'.serverLog = c.serverLog
  system : c'.system = c.system
  answers : c'.answers = c.answers
  input : c'.input = c.input

/-- Only the output is set. -/
theorem Client.SameCore.output (c : Client σ) (prot : Prot) (writes : List OutAnswer)
    (sent : List UInt8) : c.SameCore { c with prot, writes, sent } :=
  ⟨rfl, rfl, rfl, rfl, rfl, rfl, rfl, rfl⟩

/-- A client has its own core. -/
theorem Client.SameCore.refl (c : Client σ) : c.SameCore c := .output c _ _ _

/-- The core is the same over two steps. -/
theorem Client.SameCore.trans {c c' c'' : Client σ} (h : c.SameCore c') (h' : c'.SameCore c'') :
    c.SameCore c'' :=
  ⟨h'.context.trans h.context, h'.version.trans h.version, h'.invalid.trans h.invalid,
    h'.connected.trans h.connected, h'.serverLog.trans h.serverLog, h'.system.trans h.system,
    h'.answers.trans h.answers, h'.input.trans h.input⟩

/-- From `c` to `c'` the records `rs` are put behind the bytes `q` that were waiting, of which `q'`
still wait: nothing else was written, and the input is as it was. -/
structure Puts (c c' : Client σ) (q q' : List UInt8) (rs : List (List CStr)) : Prop where
  idle : OutIdle c'.prot q'
  stream : c'.sent ++ q' = c.sent ++ q ++ rs.flatMap encode
  same : SameInput c.prot c'.prot
  accepting : c.Accepting → c'.Accepting

/-- Nothing is put. -/
theorem Puts.refl {c : Client σ} {q : List UInt8} (h : OutIdle c.prot q) : Puts c c q q [] :=
  ⟨h, (List.append_nil _).symm, .refl _, id⟩

/-- Records are put one part after the other. -/
theorem Puts.trans {c c' c'' : Client σ} {q q' q'' : List UInt8} {rs rs' : List (List CStr)}
    (h : Puts c c' q q' rs) (h' : Puts c' c'' q' q'' rs') : Puts c c'' q q'' (rs ++ rs') where
  idle := h'.idle
  stream := by rw [h'.stream, h.stream, List.flatMap_append, List.append_assoc _ _ (_ ++ _)]; simp
  same := h.same.trans h'.same
  accepting := fun ha => h'.accepting (h.accepting ha)

/-- The bytes emitted so far: the written ones and the committed ones. -/
def Client.stream (c : Client σ) : List UInt8 := c.sent ++ c.prot.outbuf.pending

/-- From `c` to `c'` the records `rs` are emitted. -/
def Emits (c c' : Client σ) (rs : List (List CStr)) : Prop :=
  c'.stream = c.stream ++ rs.flatMap encode

/-- The stream of a client is what was sent and what waits. -/
theorem OutIdle.stream {c : Client σ} {q : List UInt8} (h : OutIdle c.prot q) :
    c.stream = c.sent ++ q := by
  rw [Client.stream, h.pending, List.append_nil]

/-- What is put is what the stream of the client goes on with. -/
theorem Puts.emits {c c' : Client σ} {q q' : List UInt8} {rs : List (List CStr)}
    (h : Puts c c' q q' rs) (hc : OutIdle c.prot q) : Emits c c' rs := by
  rw [Emits, h.idle.stream, hc.stream, h.stream]

/-- The text of the records tells them apart. -/
theorem flatMap_encode_injective {rs rs' : List (List CStr)} (hrs : [] ∉ rs) (hrs' : [] ∉ rs')
    (h : rs.flatMap encode = rs'.flatMap encode) : rs = rs' := by
  have hstream : ∀ l : List (List CStr), l.flatMap encode =
      protMarks.stream (l.map (List.map CStr.bytes)) := by
    intro l
    rw [Lib.Marks.stream, List.flatMap_map]
    rfl
  have hdecode : ∀ {l : List (List CStr)}, [] ∉ l →
      (protMarks.lines (l.flatMap encode)).map protMarks.decodeFields =
        l.map (List.map CStr.bytes) := by
    intro l hl
    rw [hstream, Lib.Marks.lines_stream, List.map_map]
    refine List.map_congr_left ?_ |>.trans (List.map_id _)
    intro r hr
    obtain ⟨fields, hf, rfl⟩ := List.mem_map.1 hr
    have hne : fields ≠ [] := fun h0 => hl (h0 ▸ hf)
    exact protMarks.decodeFields_encodeFields (by simpa using hne)
  have hmap : rs.map (List.map CStr.bytes) = rs'.map (List.map CStr.bytes) := by
    rw [← hdecode hrs, ← hdecode hrs', h]
  have hbytes : Function.Injective CStr.bytes := fun a b => CStr.ext
  exact List.map_injective_iff.2 (List.map_injective_iff.2 hbytes) hmap

/-- What is emitted is determined. -/
theorem Emits.unique {c c' : Client σ} {rs rs' : List (List CStr)} (h : Emits c c' rs)
    (h' : Emits c c' rs') (hrs : [] ∉ rs) (hrs' : [] ∉ rs') : rs = rs' :=
  flatMap_encode_injective hrs hrs' (List.append_cancel_left (h.symm.trans h'))

/-- No more bytes wait than the buffer holds. -/
theorem OutIdle.length_le {p : Prot} {q : List UInt8} (h : OutIdle p q) :
    q.length ≤ PROT_MAX_BUFFER_LENGTH := by
  have h1 := h.count_eq
  have h2 := h.ring.count_le
  simp only [List.length_nil, Nat.add_zero] at h1
  omega

/-- There is something to write when bytes wait. -/
theorem OutIdle.shouldWrite {p : Prot} {q : List UInt8} (h : OutIdle p q) :
    protShouldWrite p = true ↔ q ≠ [] := by
  rw [protShouldWrite, decide_eq_true_eq, h.committed]
  exact List.length_pos_iff

/-! ## Flushing -/

/-- A write moves bytes from the committed ones to the written ones. -/
theorem Client.write_written {c : Client σ} {q : List UInt8} (h : OutIdle c.prot q) (hq : q ≠ [])
    (n : Nat) :
    ∃ c', c.write (.written n) = (((min n q.length : Nat) : Int), c') ∧
      OutIdle c'.prot (q.drop n) ∧ c'.sent ++ q.drop n = c.sent ++ q ∧
      SameInput c.prot c'.prot ∧ c.SameCore c' ∧ c'.writes = c.writes := by
  obtain ⟨p', h1, h2, h3, h4⟩ := protWrite_spec h.toOutState n hq
  refine ⟨{ c with prot := p', sent := c.sent ++ q.take n }, ?_, ?_, ?_, h3, .output c _ _ _, rfl⟩
  · simp only [Client.write, h1]
  · exact { h2 with no_fields := h4.trans h.no_fields, no_empty := h3.2.2.trans h.no_empty }
  · simp

/-- A write that fails changes nothing. -/
theorem Client.write_error {c : Client σ} {q : List UInt8} (h : OutIdle c.prot q) (hq : q ≠ [])
    (e : Errno) : c.write (.error e) = (-e.val, c) := by
  have hpos := List.length_pos_of_ne_nil hq
  have hw : c.prot.wrokcnt ≠ 0 := by
    rw [h.committed]
    exact Nat.ne_of_gt hpos
  have hc : c.prot.outbuf.count ≠ 0 := by
    rw [h.count_eq]
    omega
  simp only [Client.write, protWrite_error, hw, hc, or_self, if_false, List.append_nil]

/-- The result of a flush: nothing new is emitted, and nothing stays committed when the channel
accepts. -/
structure Flushed (writes : List OutAnswer) (c : Client σ) (q : List UInt8) (r : Int × Client σ)
    (q' : List UInt8) : Prop where
  idle : OutIdle r.2.prot q'
  stream : r.2.sent ++ q' = c.sent ++ q
  same : SameInput c.prot r.2.prot
  core : c.SameCore r.2
  code : r.1 ≤ 0
  accepting : (∀ answer ∈ writes, answer.Accepts) → r.2.Accepting ∧ r.1 = 0 ∧ q' = []

/-- A flush with nothing to write. -/
theorem Flushed.nothing {writes : List OutAnswer} {c : Client σ} {q : List UInt8}
    (h : OutIdle c.prot q) (hq : q = []) : Flushed writes c q (0, { c with writes }) q where
  idle := h
  stream := rfl
  same := .refl _
  core := .output c _ _ _
  code := Int.le_refl 0
  accepting := fun ha => ⟨ha, rfl, hq⟩

/-- A write comes before the rest of a flush. -/
theorem Flushed.after {answer : OutAnswer} {writes : List OutAnswer} {c c' : Client σ}
    {q q₁ q' : List UInt8} {r : Int × Client σ} (h : Flushed writes c' q₁ r q')
    (hs : c'.sent ++ q₁ = c.sent ++ q) (hi : SameInput c.prot c'.prot) (hc : c.SameCore c') :
    Flushed (answer :: writes) c q r q' where
  idle := h.idle
  stream := h.stream.trans hs
  same := hi.trans h.same
  core := hc.trans h.core
  code := h.code
  accepting := fun ha => h.accepting fun a hm => ha a (List.mem_cons_of_mem _ hm)

/-- A write that fails ends a flush. -/
theorem Flushed.fails {answer : OutAnswer} {writes : List OutAnswer} {c : Client σ}
    {q : List UInt8} {rc : Int} (h : OutIdle c.prot q) (hrc : rc ≤ 0) (hno : ¬ answer.Accepts) :
    Flushed (answer :: writes) c q (rc, { c with writes }) q where
  idle := h
  stream := rfl
  same := .refl _
  core := .output c _ _ _
  code := hrc
  accepting := fun ha => absurd (ha answer List.mem_cons_self) hno

/-- **`flushw` emits what is committed.** -/
theorem flushLoop_spec (writes : List OutAnswer) {c : Client σ} {q : List UInt8}
    (h : OutIdle c.prot q) : ∃ q', Flushed writes c q (flushLoop writes c) q' := by
  induction writes generalizing c q with
  | nil =>
    by_cases hq : q = []
    · have hs : ¬ protShouldWrite c.prot = true := fun hs => h.shouldWrite.1 hs hq
      simp only [flushLoop, if_neg hs]
      exact ⟨q, .nothing h hq⟩
    · obtain ⟨c', h1, h2, h3, h4, h5, h6⟩ :=
        Client.write_written (c := { c with writes := [] }) h hq PROT_MAX_BUFFER_LENGTH
      simp only [flushLoop, if_pos (h.shouldWrite.2 hq), h1]
      have hq' : q.drop PROT_MAX_BUFFER_LENGTH = [] := List.drop_of_length_le h.length_le
      refine ⟨_, h2, h3, h4, .trans (.output c _ _ _) h5, Int.le_refl 0, fun _ => ⟨?_, rfl, hq'⟩⟩
      intro a hm
      rw [h6] at hm
      exact absurd hm List.not_mem_nil
  | cons answer writes ih =>
    obtain ⟨write, poll⟩ := answer
    by_cases hq : q = []
    · have hs : ¬ protShouldWrite c.prot = true := fun hs => h.shouldWrite.1 hs hq
      simp only [flushLoop, if_neg hs]
      exact ⟨q, .nothing h hq⟩
    · simp only [flushLoop, if_pos (h.shouldWrite.2 hq)]
      cases write with
      | written n =>
        obtain ⟨c', h1, h2, h3, h4, h5, -⟩ :=
          Client.write_written (c := { c with writes }) h hq n
        obtain ⟨q', h6⟩ := ih h2
        simp only [h1, if_pos (Int.natCast_nonneg _)]
        exact ⟨q', h6.after h3 h4 (.trans (.output c _ _ _) h5)⟩
      | error e =>
        have he := e.pos
        have hneg : ¬ -e.val ≥ 0 := by omega
        simp only [Client.write_error (c := { c with writes }) h hq e, if_neg hneg]
        split
        · rename_i hd
          refine ⟨q, .fails h (Int.le_refl 0) ?_⟩
          rintro (⟨n, hn⟩ | ⟨e', he', hv, -⟩)
          · cases hn
          · cases he'
            rw [hv] at hd
            exact absurd hd (by decide)
        split
        · rename_i hne
          refine ⟨q, .fails h (by omega) ?_⟩
          rintro (⟨n, hn⟩ | ⟨e', he', hv, -⟩)
          · cases hn
          · cases he'
            exact hne (by rw [hv])
        · cases poll with
          | none =>
            obtain ⟨q', h6⟩ := ih (c := { c with writes }) h
            exact ⟨q', h6.after rfl (.refl _) (.output c _ _ _)⟩
          | some p =>
            have hp := p.pos
            refine ⟨q, .fails h (by omega) ?_⟩
            rintro (⟨n, hn⟩ | ⟨e', -, -, hv⟩)
            · cases hn
            · cases hv

/-! ## Putting records -/

/-- A record that fits in the empty ring. -/
def Fits (fields : List CStr) : Prop := (encode fields).length ≤ PROT_MAX_BUFFER_LENGTH

instance (fields : List CStr) : Decidable (Fits fields) := Nat.decLe _ _

/-- What `putx` and a flush leave: the record is put, or not. -/
theorem flushw_spec {c : Client σ} {q : List UInt8} (h : OutIdle c.prot q) :
    ∃ q', Puts c (flushw c).2 q q' [] ∧ c.SameCore (flushw c).2 ∧ (flushw c).1 ≤ 0 ∧
      (c.Accepting → (flushw c).1 = 0 ∧ q' = []) := by
  obtain ⟨q', h1⟩ := flushLoop_spec c.writes h
  refine ⟨q', ⟨h1.idle, ?_, h1.same, fun ha => (h1.accepting ha).1⟩, h1.core, h1.code,
    fun ha => (h1.accepting ha).2⟩
  rw [List.flatMap_nil, List.append_nil]
  exact h1.stream

/-- **`putx` puts one record that fits, or fails and puts none.** When the channel accepts, it
fails only for a record that does not fit. -/
theorem putx_spec {c : Client σ} {q : List UInt8} (h : OutIdle c.prot q) {fields : List CStr}
    (hne : fields ≠ []) (hmax : fields.length ≤ MAX_PUTX_ITEMS) :
    c.SameCore (putx c fields).2 ∧
      ((∃ q', Puts c (putx c fields).2 q q' [fields] ∧ (putx c fields).1 = 0 ∧ Fits fields) ∨
        ∃ q', Puts c (putx c fields).2 q q' [] ∧ (putx c fields).1 < 0 ∧
          (c.Accepting → ¬ Fits fields)) := by
  have hlong : ¬ fields.length > MAX_PUTX_ITEMS := Nat.not_lt.2 hmax
  have hcancel : -ECANCELED < 0 := by decide
  have hzero : ¬ (0 : Int) = -ECANCELED := by decide
  simp only [putx, if_neg hlong]
  rcases protPut_spec h hne with ⟨hroom, p', h1, h2, h3⟩ | ⟨-, p', h1, h2, h3⟩
  · simp only [h1, if_neg hzero]
    have hfit : Fits fields := (Nat.le_add_left _ _).trans hroom
    exact ⟨.output c _ _ _, .inl ⟨_, ⟨h2, by simp, h3, id⟩, trivial, hfit⟩⟩
  · simp only [h1, if_true]
    obtain ⟨q₁, h4, h5, h6, h7⟩ := flushw_spec (c := { c with prot := p' }) h2
    have h4 : Puts c (flushw { c with prot := p' }).2 q q₁ [] :=
      ⟨h4.idle, h4.stream, h3.trans h4.same, h4.accepting⟩
    have h5 : c.SameCore (flushw { c with prot := p' }).2 := .trans (.output c _ _ _) h5
    generalize flushw { c with prot := p' } = r at h4 h5 h6 h7
    obtain ⟨rc, c₁⟩ := r
    simp only at h4 h5 h6 h7 ⊢
    split
    · rcases protPut_spec h4.idle hne with ⟨groom, p₂, g1, g2, g3⟩ | ⟨glong, p₂, g1, g2, g3⟩
      · simp only [g1]
        have hfit : Fits fields := (Nat.le_add_left _ _).trans groom
        have hput : Puts c { c₁ with prot := p₂ } q (q₁ ++ encode fields) [fields] :=
          h4.trans ⟨g2, by simp, g3, id⟩
        exact ⟨h5.trans (.output c₁ _ _ _), .inl ⟨q₁ ++ encode fields, hput, trivial, hfit⟩⟩
      · simp only [g1]
        have hput : Puts c { c₁ with prot := p₂ } q q₁ [] :=
          h4.trans ⟨g2, (List.append_nil _).symm, g3, id⟩
        refine ⟨h5.trans (.output c₁ _ _ _), .inr ⟨_, hput, hcancel, fun ha => ?_⟩⟩
        rw [(h7 ha).2, List.length_nil, Nat.zero_add] at glong
        exact Nat.not_le_of_lt glong
    · rename_i hrc
      exact ⟨h5, .inr ⟨q₁, h4, by omega, fun ha => absurd (h7 ha).1 hrc⟩⟩

/-- A record of `putx` followed by a flush. -/
theorem putx_flushw {c : Client σ} {q : List UInt8} (h : OutIdle c.prot q) {fields : List CStr}
    (hne : fields ≠ []) (hmax : fields.length ≤ MAX_PUTX_ITEMS) :
    ∃ q' rs, Puts c (flushw (putx c fields).2).2 q q' rs ∧
      c.SameCore (flushw (putx c fields).2).2 ∧ (rs = [fields] ∨ rs = []) ∧
      (c.Accepting → q' = [] ∧ (Fits fields → rs = [fields])) := by
  obtain ⟨hcore, ⟨q₁, h1, -⟩ | ⟨q₁, h1, -, hfit⟩⟩ := putx_spec h hne hmax
  · obtain ⟨q₂, g1, g2, -, g4⟩ := flushw_spec h1.idle
    exact ⟨q₂, [fields], h1.trans g1, hcore.trans g2, .inl rfl,
      fun ha => ⟨(g4 (h1.accepting ha)).2, fun _ => rfl⟩⟩
  · obtain ⟨q₂, g1, g2, -, g4⟩ := flushw_spec h1.idle
    exact ⟨q₂, [], h1.trans g1, hcore.trans g2, .inr rfl,
      fun ha => ⟨(g4 (h1.accepting ha)).2, fun hf => absurd hf (hfit ha)⟩⟩

/-! ## Ends of replies -/

/-- The acknowledgement, or nothing when it cannot be put. -/
theorem sendDone_spec {c : Client σ} {q : List UInt8} (h : OutIdle c.prot q) (arg : Option CStr) :
    ∃ q' rs, Puts c (sendDone c arg) q q' rs ∧ c.SameCore (sendDone c arg) ∧
      (rs = [wordDone :: arg.toList] ∨ rs = []) ∧
      (c.Accepting →
        q' = [] ∧ (Fits (wordDone :: arg.toList) → rs = [wordDone :: arg.toList])) := by
  refine putx_flushw h (List.cons_ne_nil _ _) ?_
  cases arg <;> simp [MAX_PUTX_ITEMS]

/-- `send_error` raises the error flag. -/
theorem sendError_spec {c : Client σ} {q : List UInt8} (h : OutIdle c.prot q) (text : CStr) :
    ∃ q' rs, Puts c (sendError c text) q q' rs ∧
      { c with context := contextRaiseError c.context }.SameCore (sendError c text) ∧
      (rs = [[wordError, text]] ∨ rs = []) ∧
      (c.Accepting → q' = [] ∧ (Fits [wordError, text] → rs = [[wordError, text]])) := by
  obtain ⟨q', rs, h1, h2, h3, h4⟩ := putx_flushw
    (c := { c with context := contextRaiseError c.context }) h
    (List.cons_ne_nil wordError [text]) (by decide : 2 ≤ MAX_PUTX_ITEMS)
  exact ⟨q', rs, ⟨h1.idle, h1.stream, h1.same, h1.accepting⟩, h2, h3, h4⟩

/-! ## Displays -/

/-- What the visit of the records `l` leaves: it puts them all, or stops at one that it fails to
put. When the channel accepts, it fails only for a record that does not fit. -/
structure Visited (c : Client σ) (q : List UInt8) (l : List (List CStr)) (r : Int × Client σ)
    (q' : List UInt8) (rs : List (List CStr)) : Prop where
  puts : Puts c r.2 q q' rs
  core : c.SameCore r.2
  isPrefix : rs <+: l
  code : r.1 ≤ 0
  whole : r.1 = 0 → rs = l ∧ ∀ fields ∈ l, Fits fields
  fits : c.Accepting → (∀ fields ∈ l, Fits fields) → r.1 = 0

/-- The loop of a display, by induction on its records. -/
theorem visitLoop_spec {l : List (List CStr)} (hl : ∀ fields ∈ l, fields ≠ [] ∧
      fields.length ≤ MAX_PUTX_ITEMS) {c : Client σ} {q : List UInt8} (h : OutIdle c.prot q) :
    ∃ q' rs, Visited c q l (visitLoop l c) q' rs := by
  induction l generalizing c q with
  | nil => exact ⟨q, [], .refl h, .refl c, List.prefix_refl _, Int.le_refl 0, fun _ => ⟨rfl, nofun⟩,
      fun _ _ => rfl⟩
  | cons fields l ih =>
    obtain ⟨hf, hl⟩ := List.forall_mem_cons.1 hl
    obtain ⟨hcore, ⟨q₁, h1, hrc, hfit⟩ | ⟨q₁, h1, hrc, hfit⟩⟩ := putx_spec h hf.1 hf.2
    · obtain ⟨q₂, rs, hv⟩ := ih hl h1.idle
      simp only [visitLoop, hrc, if_true]
      refine ⟨q₂, fields :: rs, h1.trans hv.puts, hcore.trans hv.core,
        List.cons_prefix_cons.2 ⟨rfl, hv.isPrefix⟩, hv.code, fun h0 => ?_, fun ha hall => ?_⟩
      · obtain ⟨heq, hall⟩ := hv.whole h0
        exact ⟨congrArg _ heq, List.forall_mem_cons.2 ⟨hfit, hall⟩⟩
      · exact hv.fits (h1.accepting ha) (List.forall_mem_cons.1 hall).2
    · simp only [visitLoop, if_neg (Int.ne_of_lt hrc)]
      refine ⟨q₁, [], h1, hcore, List.nil_prefix, Int.le_of_lt hrc, fun h0 => ?_, fun ha hall => ?_⟩
      · exact absurd h0 (Int.ne_of_lt hrc)
      · exact absurd (List.forall_mem_cons.1 hall).1 (hfit ha)

/-- A record keyed `string`. -/
def IsString (fields : List CStr) : Prop := fields.head? = some wordString

/-- The records of a visit are strings, short enough for `putx`. -/
theorem contextVisit_strings (context : Context) : ∀ fields ∈ contextVisit context,
    IsString fields ∧ fields ≠ [] ∧ fields.length ≤ MAX_PUTX_ITEMS := by
  intro fields hf
  simp only [contextVisit, List.mem_append, List.mem_map] at hf
  rcases hf with ((hf | ⟨p, -, rfl⟩) | ⟨p, -, rfl⟩) | ⟨p, -, rfl⟩
  · split at hf
    · rw [List.mem_singleton.1 hf]
      exact ⟨rfl, List.cons_ne_nil _ _, by simp [MAX_PUTX_ITEMS]⟩
    · exact absurd hf List.not_mem_nil
  · exact ⟨rfl, List.cons_ne_nil _ _, by simp [MAX_PUTX_ITEMS]⟩
  · exact ⟨rfl, List.cons_ne_nil _ _, by simp [MAX_PUTX_ITEMS]⟩
  · exact ⟨rfl, List.cons_ne_nil _ _, by simp [MAX_PUTX_ITEMS]⟩

/-- The record that shows the error flag. -/
def errorOn : List CStr := [wordString, wordError, wordOn]

/-- The records of a display, in their order. -/
def shownRecords (context : Context) : List (List CStr) :=
  (if contextHasError context then [errorOn] else []) ++ contextVisit context

/-- So are those of a display. -/
theorem shownRecords_strings (context : Context) : ∀ fields ∈ shownRecords context,
    IsString fields ∧ fields ≠ [] ∧ fields.length ≤ MAX_PUTX_ITEMS := by
  intro fields hf
  obtain hf | hf := List.mem_append.1 hf
  · split at hf
    · rw [List.mem_singleton.1 hf]
      exact ⟨rfl, List.cons_ne_nil _ _, (by decide : 3 ≤ MAX_PUTX_ITEMS)⟩
    · exact absurd hf List.not_mem_nil
  · exact contextVisit_strings context fields hf

/-- `send_display` visits the shown records. -/
theorem sendDisplay_eq {c : Client σ} {q : List UInt8} (h : OutIdle c.prot q) :
    sendDisplay c = visitLoop (shownRecords c.context) c := by
  cases he : contextHasError c.context with
  | false => simp [sendDisplay, shownRecords, he]
  | true =>
    have hcore := (putx_spec h (List.cons_ne_nil wordString [wordError, wordOn])
      (by decide : 3 ≤ MAX_PUTX_ITEMS)).1
    simp only [sendDisplay, shownRecords, he, if_true, List.singleton_append, visitLoop, errorOn,
      hcore.context]

/-- **`send_display` puts the shown records**, up to one that it fails to put. -/
theorem sendDisplay_spec {c : Client σ} {q : List UInt8} (h : OutIdle c.prot q) :
    ∃ q' rs, Visited c q (shownRecords c.context) (sendDisplay c) q' rs := by
  rw [sendDisplay_eq h]
  exact visitLoop_spec (fun f hf => (shownRecords_strings c.context f hf).2) h

end SecLsmManager
