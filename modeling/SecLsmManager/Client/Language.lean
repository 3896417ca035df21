import SecLsmManager.Client.Connection
import SecLsmManager.Client.Session

/-!
# The query language

What a turn of the loop of `client_process_input` does with the next line of the stream, in every
state that a client reaches there. The fields that decide are the reported ones: the first 20, each
up to its first NUL.
-/

namespace SecLsmManager

open Lib

variable {σ : Type*} {permgr : PermMgr σ} {mac : Mac σ}

/-! ## The states of the loop -/

/-- A turn of the loop on the pending requests. -/
def Client.take (permgr : PermMgr σ) (mac : Mac σ) (client : Client σ) : Client σ :=
  let (rc, prot) := protGet client.prot
  let client := { client with prot }
  if rc < 0 then client
  else
    let client := if rc > 0 then onrequest permgr mac client (protArgs prot) else client
    { client with prot := protNext client.prot }

/-- The states of a client at the head of the loop, and the number of the records it has taken. -/
inductive Client.Reached (permgr : PermMgr σ) (mac : Mac σ) : Client σ → Nat → Prop
  | create (mem : ProtMem) (idmem : Nat → UInt8) (system : σ) (serverLog : Bool)
      (answers : Nat → Answers) (writes : List OutAnswer) (input : List UInt8) :
      Reached permgr mac (clientCreate mem idmem system serverLog answers writes input) 0
  | take {c : Client σ} {n : Nat} : Reached permgr mac c n → c.invalid = false →
      Reached permgr mac (c.take permgr mac) (if (protGet c.prot).1 > 0 then n + 1 else n)
  | read {c : Client σ} {n : Nat} (cut : Option Nat) : Reached permgr mac c n →
      Reached permgr mac (c.read cut).2 n

/-- What holds of the states of the loop. -/
structure Client.AtLoop (c : Client σ) (n : Nat) : Prop where
  idle : ∃ q, OutIdle c.prot q
  pending : ∃ b, Pending c.prot b
  version : c.invalid = false → (c.version = 0 ↔ n = 0)

/-- The processing of a record in any state of the loop. -/
theorem onrequest_atLoop (permgr : PermMgr σ) (mac : Mac σ) {c : Client σ} {q : List UInt8}
    (hidle : OutIdle c.prot q) {args : List CStr} (hne : args ≠ []) :
    ∃ q' rs, Puts c (onrequest permgr mac c args) q q' rs ∧
      ((onrequest permgr mac c args).invalid = false →
        (onrequest permgr mac c args).version ≠ 0) := by
  obtain ⟨query, -, hserve⟩ | ⟨-, version, hinvalid⟩ := onrequest_cases permgr mac c hne
  · obtain ⟨q', strings, ends, hrep⟩ := serve_replied permgr mac (c := c.started) hidle query
    have hp := hrep.puts
    rw [hserve]
    exact ⟨q', _, ⟨hp.idle, hp.stream, hp.same, hp.accepting⟩,
      fun _ => hrep.link.2.2.2 ▸ c.started_version⟩
  · obtain ⟨q', ends, hp, -, -, hcore⟩ := invalidProtocol_spec (c := { c with version }) hidle
    rw [hinvalid]
    refine ⟨q', ends, ⟨hp.idle, hp.stream, hp.same, hp.accepting⟩, fun hf => ?_⟩
    cases hcore.invalid.symm.trans hf

theorem onrequest_input (permgr : PermMgr σ) (mac : Mac σ) {c : Client σ} {q : List UInt8}
    (h : OutIdle c.prot q) {args : List CStr} (hne : args ≠ []) :
    (onrequest permgr mac c args).input = c.input := by
  obtain ⟨query, -, hserve⟩ | ⟨-, version, hinvalid⟩ := onrequest_cases permgr mac c hne
  · obtain ⟨q', strings, ends, hrep⟩ := serve_replied permgr mac (c := c.started) h query
    rw [hserve]
    exact hrep.link.2.2.1
  · obtain ⟨q', ends, -, -, -, hcore⟩ := invalidProtocol_spec (c := { c with version }) h
    rw [hinvalid]
    exact hcore.input

/-- A turn with no record to take. -/
theorem Client.take_none {c : Client σ} {p : Prot} {rc : Int} (hget : protGet c.prot = (rc, p))
    (hneg : rc < 0) : c.take permgr mac = { c with prot := p } := by
  simp only [Client.take, hget, if_pos hneg]

/-- A turn that takes a record. -/
theorem Client.take_record {c : Client σ} {p : Prot} {line b : List UInt8} (hline : line ≠ [])
    (hget : protGet c.prot = (((reported line).length : Int), p)) (hhold : Holding p line b) :
    c.take permgr mac =
      { onrequest permgr mac { c with prot := p } (report line) with
        prot := protNext (onrequest permgr mac { c with prot := p } (report line)).prot } := by
  have hpos := reported_length_pos hline
  have hneg : ¬ ((reported line).length : Int) < 0 := by omega
  have hgt : ((reported line).length : Int) > 0 := by omega
  simp only [Client.take, hget, if_neg hneg, if_pos hgt, hhold.args]

theorem report_ne_nil {line : List UInt8} (h : line ≠ []) : report line ≠ [] := by
  have hpos := reported_length_pos h
  exact List.ne_nil_of_length_pos (by rwa [report, List.length_map])

theorem Client.AtLoop.take {c : Client σ} {n : Nat} (h : c.AtLoop n) :
    (c.take permgr mac).AtLoop (if (protGet c.prot).1 > 0 then n + 1 else n) := by
  obtain ⟨q, hidle⟩ := h.idle
  obtain ⟨b, hpend⟩ := h.pending
  obtain ⟨k, p, hout, ⟨line, b', -, hline, -, hget, hhold⟩ | ⟨b', -, -, hget, hp⟩⟩ :=
    protGet_spec hpend hidle.no_empty
  · have hpos := reported_length_pos hline
    have hgt : (protGet c.prot).1 > 0 := by
      rw [hget]
      exact Int.natCast_pos.2 hpos
    obtain ⟨q', rs, hputs, hversion⟩ := onrequest_atLoop permgr mac (c := { c with prot := p })
      (hidle.congr hout) (report_ne_nil hline)
    have hnext := (hhold.congr hputs.same).next
    rw [if_pos hgt, Client.take_record hline hget hhold]
    exact ⟨⟨q', hputs.idle.congr hnext.2⟩, ⟨b', hnext.1⟩,
      fun hf => iff_of_false (hversion hf) (Nat.succ_ne_zero n)⟩
  · have hle : ¬ (protGet c.prot).1 > 0 := by
      rw [hget]
      exact Int.not_lt.2 (Int.le_of_lt (waitCode_neg b'))
    rw [if_neg hle, Client.take_none hget (waitCode_neg b')]
    exact ⟨⟨q, hidle.congr hout⟩, ⟨b', hp⟩, h.version⟩

theorem Client.AtLoop.read {c : Client σ} {n : Nat} (h : c.AtLoop n) (cut : Option Nat) :
    (c.read cut).2.AtLoop n := by
  cases cut with
  | none =>
    have heq : (c.read none).2 = c := by
      simp only [Client.read, protRead_error]
    rwa [heq]
  | some m =>
    obtain ⟨q, hidle⟩ := h.idle
    obtain ⟨b, hpend⟩ := h.pending
    exact ⟨⟨q, hidle.congr (protRead_sameOutput c.prot (.data (c.input.take (m + 1))))⟩,
      ⟨_, hpend.read _⟩, h.version⟩

/-- Every state of the loop, by induction on how it is reached. -/
theorem Client.Reached.atLoop {c : Client σ} {n : Nat} (h : Client.Reached permgr mac c n) :
    c.AtLoop n := by
  induction h with
  | create mem idmem system serverLog answers writes input =>
    exact ⟨⟨[], outIdle_protReset mem⟩, ⟨[], pending_protReset mem⟩, fun _ => iff_of_true rfl rfl⟩
  | take _ _ ih => exact ih.take
  | read cut _ ih => exact ih.read cut

/-! ## The next line -/

/-- The bytes that are buffered. -/
def Client.buffered (c : Client σ) : List UInt8 :=
  cells c.prot.inbuf.content 0 c.prot.inbuf.count

/-- The first line of a text that is not empty is determined. -/
theorem firstLine_unique {line line' more more' : List UInt8} (hb : protMarks.Body line)
    (hb' : protMarks.Body line') (hline : line ≠ []) (hline' : line' ≠ []) :
    ∀ {k k' : Nat}, List.replicate k PROT_RECORD_SEPARATOR ++
        (line ++ PROT_RECORD_SEPARATOR :: more) =
      List.replicate k' PROT_RECORD_SEPARATOR ++ (line' ++ PROT_RECORD_SEPARATOR :: more') →
    line = line' ∧ more = more' := by
  have hfirst : ∀ {l l' m m' : List UInt8}, protMarks.Body l → protMarks.Body l' →
      l ++ PROT_RECORD_SEPARATOR :: m = l' ++ PROT_RECORD_SEPARATOR :: m' → l = l' := by
    intro l l' m m' h h' heq
    have hlines := congrArg protMarks.lines heq
    rw [show PROT_RECORD_SEPARATOR = protMarks.eor from rfl, protMarks.lines_body_cons h,
      protMarks.lines_body_cons h'] at hlines
    exact (List.cons.inj hlines).1
  intro k
  induction k with
  | zero =>
    intro k' heq
    cases k' with
    | zero =>
      have hl := hfirst hb hb' heq
      subst hl
      exact ⟨rfl, (List.cons.inj (List.append_cancel_left heq)).2⟩
    | succ k' => exact absurd (@hfirst _ [] _ _ hb .nil heq) hline
  | succ k ih =>
    intro k' heq
    cases k' with
    | zero => exact absurd (hfirst (l := []) .nil hb' heq).symm hline'
    | succ k' => exact ih (List.cons.inj heq).2

/-- `prot_get` takes the next line. -/
theorem protGet_line {p : Prot} {line more : List UInt8} {k : Nat}
    (h : Pending p (List.replicate k PROT_RECORD_SEPARATOR ++
      (line ++ PROT_RECORD_SEPARATOR :: more)))
    (he : p.allowEmpty = false) (hb : protMarks.Body line) (hline : line ≠ []) :
    ∃ p', SameOutput p p' ∧ protGet p = (((reported line).length : Int), p') ∧
      Holding p' line more := by
  obtain ⟨k', p', hout, ⟨line', b', heq, hline', hb', hget, hhold⟩ | ⟨b', heq, hno, -, -⟩⟩ :=
    protGet_spec h he
  · obtain ⟨rfl, rfl⟩ := firstLine_unique hb hb' hline hline' heq
    exact ⟨p', hout, hget, hhold⟩
  · -- no record would end in a text that has one behind its empty lines
    have hlines := congrArg protMarks.lines heq
    have hskip : ∀ (j : Nat) (l : List UInt8), protMarks.lines
        (List.replicate j PROT_RECORD_SEPARATOR ++ l) =
          List.replicate j [] ++ protMarks.lines l := by
      intro j l
      induction j with
      | zero => rfl
      | succ j ih =>
        have hstep := protMarks.lines_body_cons .nil (List.replicate j PROT_RECORD_SEPARATOR ++ l)
        rw [ih] at hstep
        exact hstep
    have hnone : protMarks.lines b' = [] := (protMarks.linesFrom_noEnd [] b' hno).1
    rw [hskip, hskip, show PROT_RECORD_SEPARATOR = protMarks.eor from rfl,
      protMarks.lines_body_cons hb, hnone, List.append_nil] at hlines
    have hmem : line ∈ List.replicate k' ([] : List UInt8) := by
      rw [← hlines]
      exact List.mem_append_right _ List.mem_cons_self
    exact absurd (List.eq_of_mem_replicate hmem) hline

/-! ## Main result -/

/-- The fields are those of the query, a greeting when `n = 0` records were taken before. -/
def Query.Matches (query : Query) (n : Nat) (fields : List CStr) : Prop :=
  fields = query.fields ∧ (query.IsHello → n = 0)

/-- Fields without a NUL, and not more than the handler reports, are reported as they are. -/
theorem report_full {line : List UInt8} (hline : line ≠ [])
    (hlen : (protMarks.decodeFields line).length ≤ PROT_MAX_FIELDS)
    (hnul : ∀ field ∈ protMarks.decodeFields line, 0 ∉ field) :
    (report line).map CStr.bytes = protMarks.decodeFields line := by
  rw [report, reported, if_neg hline, List.take_of_length_le hlen, List.map_map]
  refine List.map_congr_left (fun field hf => ?_) |>.trans (List.map_id _)
  exact CStr.ofBytes_of_nonul (hnul field hf)

/-- **The query language.** In any state of the loop, the next line is known by its reported
fields: the first 20 of all its fields, each up to its first NUL; these are all of them when there
are not more than 20 and none has a NUL. When they are well-formed UTF-8 and those of a query (a
greeting only as the first one), the query is served with them. When they are those of no query, or
one of them does not pass the check of UTF-8, the line is answered by `error protocol`, nothing of
the context changes but the error flag, no call is made and the connection is invalid. -/
theorem query_language {c : Client σ} {n : Nat} (hc : Client.Reached permgr mac c n)
    (hvalid : c.invalid = false) {line more : List UInt8} {k : Nat}
    (hbuf : c.buffered = List.replicate k PROT_RECORD_SEPARATOR ++
      (line ++ PROT_RECORD_SEPARATOR :: more))
    (hbody : protMarks.Body line) (hline : line ≠ []) :
    let fields := ((protMarks.decodeFields line).take PROT_MAX_FIELDS).map CStr.ofBytes
    let held := { c with prot := (protGet c.prot).2 }
    let c' := c.take permgr mac
    ((protMarks.decodeFields line).length ≤ PROT_MAX_FIELDS →
      (∀ field ∈ protMarks.decodeFields line, 0 ∉ field) →
      fields.map CStr.bytes = protMarks.decodeFields line) ∧
    (∀ query : Query, query.Matches n fields → (∀ field ∈ fields, Utf8 field.bytes) →
      let served := held.started.serve permgr mac query
      c' = { served with prot := protNext served.prot } ∧ c'.invalid = false) ∧
    ((∀ query : Query, ¬ query.Matches n fields) ∨ (∃ field ∈ fields, isUtf8 field = false) →
      c'.invalid = true ∧ c'.context = contextRaiseError c.context ∧ c'.system = c.system ∧
      ∃ rs, Emits c c' rs ∧ (rs = [protocolError] ∨ rs = []) ∧
        (c.Accepting → rs = [protocolError])) := by
  intro fields held c'
  obtain ⟨⟨q, hidle⟩, ⟨b, hpend⟩, hversion⟩ := hc.atLoop
  have hversion := hversion hvalid
  obtain rfl : c.buffered = b := hpend.bytes
  rw [hbuf] at hpend
  obtain ⟨p, hout, hget, hhold⟩ := protGet_line hpend hidle.no_empty hbody hline
  have hheld : held = { c with prot := p } := by
    simp only [held, hget]
  have hfields : fields = report line := by
    simp only [fields, report, reported, if_neg hline]
  have hidle' : OutIdle held.prot q := by
    rw [hheld]
    exact hidle.congr hout
  have hhold' : Holding held.prot line more := by
    rw [hheld]
    exact hhold
  have htake : c' = { onrequest permgr mac held fields with
      prot := protNext (onrequest permgr mac held fields).prot } := by
    rw [hheld, hfields]
    exact Client.take_record hline hget hhold
  refine ⟨fun hlen hnul => ?_, fun query hq hutf8 => ?_, fun hno => ?_⟩
  · rw [hfields]
    exact report_full hline hlen hnul
  · intro served
    have hr : Receives held fields query := by
      refine ⟨?_, hq.1, fun hh => ?_⟩
      · rw [checkUtf8, List.all_eq_true]
        exact fun field hf => (hutf8 field hf).isUtf8
      · exact hversion.2 (hq.2 hh)
    have hserved : onrequest permgr mac held fields = served := onrequest_query hr
    obtain ⟨q', strings, ends, hrep⟩ :=
      serve_replied permgr mac (c := held.started) hidle' query
    rw [htake, hserved]
    exact ⟨rfl, hrep.link.1.trans hvalid⟩
  · have hnone : ∀ query, ¬ Receives held fields query := by
      rintro query ⟨hu, hf, hfirst⟩
      obtain hno | ⟨field, hmem, hbad⟩ := hno
      · exact hno query ⟨hf, fun hh => hversion.1 (hfirst hh)⟩
      · have hgood := List.all_eq_true.1 hu field hmem
        exact absurd (hbad.symm.trans hgood) Bool.false_ne_true
    have hne : fields ≠ [] := hfields ▸ report_ne_nil hline
    obtain ⟨query, hr, -⟩ | ⟨-, version, hinvalid⟩ := onrequest_cases permgr mac held hne
    · exact absurd hr (hnone query)
    obtain ⟨q', ends, hp, hends, hacc, hcore⟩ :=
      invalidProtocol_spec (c := { held with version }) hidle'
    rw [htake, hinvalid]
    have hnext := (hhold'.congr hp.same).next
    refine ⟨hcore.invalid, hcore.context, hcore.system, ends, ?_, hends, fun ha => (hacc ha).2⟩
    rw [Emits, hidle.stream, OutIdle.stream (hp.idle.congr hnext.2)]
    exact hp.stream

/-- `clear`, a NUL and a byte more. -/
def clearNul : List UInt8 := wordClear.bytes ++ [0, 120]

/-- A greeting that offers the version 2 twenty times and then the version 1. -/
def longGreeting : List CStr :=
  wordSecLsmManager :: (List.replicate 20 (.lit "2") ++ [PROTOCOL_VERSION_1_STRING])

/-- A client that has a line to read. -/
def Client.reading (line : List UInt8) : Client (Unit × List Call) :=
  { Client.fresh with input := line ++ [PROT_RECORD_SEPARATOR] }

/-- The same client after a turn of the server. -/
def Client.turned (line : List UInt8) : Client (Unit × List Call) :=
  (clientProcessInput PermMgr.idle.recorded Mac.idle.recorded [99] (.reading line)).2

/-- With all the fields as they are, a line that is no query is served, and a greeting is answered
as a violation. -/
theorem query_language_all_fields :
    ((∀ query : Query, protMarks.decodeFields clearNul ≠ query.fields.map CStr.bytes) ∧
      (Client.turned clearNul).sent = encode [wordDone] ∧
      (Client.turned clearNul).invalid = false) ∧
    (∃ query : Query, query.IsHello ∧ protMarks.decodeFields
        (protMarks.encodeFields (longGreeting.map CStr.bytes)) = query.fields.map CStr.bytes) ∧
      (Client.turned (protMarks.encodeFields (longGreeting.map CStr.bytes))).sent =
        encode protocolError ∧
      (Client.turned (protMarks.encodeFields (longGreeting.map CStr.bytes))).invalid = true := by
  have hfields : protMarks.decodeFields clearNul = [clearNul] := by decide +kernel
  refine ⟨⟨fun query hq => ?_, by decide +kernel, by decide +kernel⟩,
    ⟨.hello _ (List.mem_append_right (List.replicate 20 (.lit "2")) List.mem_cons_self), trivial,
      protMarks.decodeFields_encodeFields (by simp [longGreeting])⟩,
    by decide +kernel, by decide +kernel⟩
  have hmem : clearNul ∈ query.fields.map CStr.bytes := by
    rw [← hq, hfields]
    exact List.mem_singleton_self _
  obtain ⟨s, -, hs⟩ := List.mem_map.1 hmem
  exact s.nonul (hs ▸ List.mem_append_right _ List.mem_cons_self)

/-- The line of a path behind an empty one. -/
theorem query_language_path :
    ((((Client.reading (10 :: (CStr.lit "path /a\\ b default").bytes)).read (some 99)).2).take
      PermMgr.idle.recorded Mac.idle.recorded).invalid = false := by
  have hfields : ((protMarks.decodeFields (CStr.lit "path /a\\ b default").bytes).take
      PROT_MAX_FIELDS).map CStr.ofBytes = [wordPath, .lit "/a b", .lit "default"] := by
    decide +kernel
  have hbuf : ((Client.reading (10 :: (CStr.lit "path /a\\ b default").bytes)).read
      (some 99)).2.buffered = List.replicate 1 PROT_RECORD_SEPARATOR ++
      ((CStr.lit "path /a\\ b default").bytes ++ PROT_RECORD_SEPARATOR :: []) := by
    decide +kernel
  have hbody : protMarks.Body (CStr.lit "path /a\\ b default").bytes := by
    rw [show (CStr.lit "path /a\\ b default").bytes = protMarks.encodeFields
      ([wordPath, .lit "/a b", .lit "default"].map CStr.bytes) by decide +kernel]
    exact protMarks.body_encodeFields _
  have hutf8 : ∀ field ∈ [wordPath, .lit "/a b", .lit "default"], Utf8 field.bytes := by
    have hascii : ∀ field ∈ [wordPath, .lit "/a b", .lit "default"], ∀ a ∈ field.bytes,
        a ≤ 0x7f := by decide +kernel
    exact fun field hf => .ascii (hascii field hf)
  have hreached : Client.Reached PermMgr.idle.recorded Mac.idle.recorded
      ((Client.reading (10 :: (CStr.lit "path /a\\ b default").bytes)).read (some 99)).2 0 :=
    .read _ (.create _ _ _ _ _ _ _)
  refine ((query_language hreached rfl hbuf hbody (by decide +kernel)).2.1
    (.path (.lit "/a b") (.lit "default")) ⟨hfields, fun h => absurd h id⟩ ?_).2
  rw [hfields]
  exact hutf8

end SecLsmManager
