import SecLsmManager.Library.InStep

/-!
# The connection of a handle

`connection` sends the greeting and checks the reply. `Joint.greet` is the run where every transfer
is done at once; it leaves a handle that is connected, with nothing on its way.
-/

namespace SecLsmManager

open Lib

variable {σ : Type*} {permgr : PermMgr σ} {mac : Mac σ}

/-- What `connection` sends. -/
def greeting : List CStr := [wordSecLsmManager, PROTOCOL_VERSION_1_STRING]

/-- The end of `connection`, on the code of `wait_any_reply`. -/
def Handle.greeted (handle : Handle) (rc : Int) : Int × Handle :=
  if rc ≥ 0 then
    if handle.reply.length ≥ 2 ∧ handle.reply[0]? = some wordDone ∧
        handle.reply[1]? = some PROTOCOL_VERSION_1_STRING then
      (0, { handle with state := .connected })
    else (-EPROTO, { handle with state := .broken })
  else (rc, { handle with state := .broken })

/-- `connection` to the client `server` of the server, with its code. -/
def Joint.greet (permgr : PermMgr σ) (mac : Mac σ) (mem : ProtMem) (server : Client σ) :
    Int × Joint σ :=
  let (_, prot) := sendTrial (protReset mem) greeting
  let (_, prot, bytes) := protWrite prot (.written PROT_MAX_BUFFER_LENGTH)
  let server := { server with input := bytes }
  let server := (server.read (some PROT_MAX_BUFFER_LENGTH)).2.take permgr mac
  let (_, prot) := protRead prot (.data server.sent)
  let (rc, prot) := protGet prot
  let (rc, handle) := Handle.greeted ⟨prot, false, .disconnected, protArgs prot⟩ rc
  (rc, ⟨⟨handle, .idle, []⟩, server, [], []⟩)

/-- A handle that is connected and has not been used yet. -/
structure Joint.Connected (j : Joint σ) : Prop where
  state : j.library.handle.state = .connected
  lock : j.library.handle.synclock = false
  idle : j.library.doing = .idle
  returned : j.library.returned = []
  answered : j.answered = []
  output : OutIdle j.library.handle.prot []
  buffered : Buffered j.library.handle.prot []
  down : j.down = []
  server : j.server.Rests []
  input : j.server.input = []

theorem Joint.Connected.sound {j : Joint σ} (h : j.Connected) : j.Sound where
  state := h.state
  lock := iff_of_false (h.lock ▸ Bool.false_ne_true) (fun hd => hd h.idle)
  returned := by
    rw [h.returned]
    exact List.forall_mem_nil _
  phase := by
    refine .quiet (Or.inl h.idle) h.output h.buffered h.down h.server h.input ?_
    rw [h.answered, h.returned]
    rfl

/-! ## The exchange of the greeting -/

/-- A read that gets all there is to read. -/
theorem protRead_all {p : Prot} (h : Pending p []) {bytes : List UInt8}
    (hlen : bytes.length ≤ PROT_MAX_BUFFER_LENGTH) :
    ∃ p', protRead p (.data bytes) = ((bytes.length : Int), p') ∧ Pending p' bytes ∧
      SameOutput p p' := by
  have hcount : p.inbuf.count = 0 := h.length.symm
  have hroom : ¬ p.inbuf.count = PROT_MAX_BUFFER_LENGTH := by
    rw [hcount]
    decide
  have hall : readable p bytes = bytes := by
    rw [readable, hcount]
    exact List.take_of_length_le hlen
  have hread := h.read bytes
  rw [if_neg hroom, hall, List.nil_append] at hread
  refine ⟨_, ?_, hread, protRead_sameOutput p (.data bytes)⟩
  rw [protRead_data, if_neg hroom, hall]

/-- The server replies to the greeting. -/
theorem Client.Rests.take_greeting (permgr : PermMgr σ) (mac : Mac σ) {c : Client σ}
    (h : c.Rests (encode greeting)) (hversion : c.version = 0) :
    (c.take permgr mac).Rests [] ∧ (c.take permgr mac).input = c.input ∧
      (c.take permgr mac).sent = c.sent ++ encode [wordDone, PROTOCOL_VERSION_1_STRING] := by
  let r : Record := ⟨greeting, by decide, by decide, by decide⟩
  have hfit : Fits r.fields := by decide +kernel
  have heq : encode greeting ++ [] = encode r.fields ++ [] := rfl
  obtain ⟨p, hout, ⟨line, b', hline, hreport, hrest, hget, hhold⟩ | ⟨-, -, -, hsome⟩⟩ :=
    protGet_record r hfit h.pending h.idle.no_empty heq
  · obtain rfl : b' = [] := (List.append_eq_nil_iff.1 hrest).1
    have hreceives : Receives { c with prot := p } greeting
        (.hello [PROTOCOL_VERSION_1_STRING] List.mem_cons_self) :=
      ⟨by decide +kernel, rfl, fun _ => hversion⟩
    have hserve : onrequest permgr mac { c with prot := p } greeting =
        sendDone ({ c with prot := p } : Client σ).started (some PROTOCOL_VERSION_1_STRING) :=
      onrequest_query hreceives
    have hdone : Fits (wordDone :: (some PROTOCOL_VERSION_1_STRING).toList) := by decide +kernel
    have hputs := sendDone_given (c := ({ c with prot := p } : Client σ).started)
      (h.idle.congr hout) h.accepting hdone
    have hnext := (hhold.congr hputs.same).next
    have hsent := hputs.stream
    rw [List.append_nil, List.append_nil, List.flatMap_singleton] at hsent
    have hinput : (onrequest permgr mac { c with prot := p } greeting).input = c.input :=
      onrequest_input permgr mac (c := { c with prot := p }) (h.idle.congr hout) (by decide)
    rw [Client.take_record hline hget hhold, hreport]
    refine ⟨⟨?_, ?_, ?_⟩, hinput, ?_⟩
    · simp only [r, hserve]
      exact hnext.1
    · simp only [r, hserve]
      exact hputs.idle.congr hnext.2
    · simp only [r, hserve]
      exact hputs.accepting h.accepting
    · simp only [r, hserve]
      exact hsent
  · exact absurd rfl hsome

/-- **The greeting** of a client just created succeeds and leaves nothing on its way. -/
theorem Joint.greet_connected (permgr : PermMgr σ) (mac : Mac σ) (mem mem' : ProtMem)
    (idmem : Nat → UInt8) (system : σ) (serverLog : Bool) (answers : Nat → Answers)
    {writes : List OutAnswer} (hwrites : ∀ answer ∈ writes, answer.Accepts) :
    let server := clientCreate mem' idmem system serverLog answers writes []
    (Joint.greet permgr mac mem server).1 = 0 ∧
      (Joint.greet permgr mac mem server).2.Connected := by
  intro server
  have hlen : (encode greeting).length ≤ PROT_MAX_BUFFER_LENGTH := by decide +kernel
  have hne : encode greeting ≠ [] := by decide +kernel
  have hsome : greeting ≠ [] := List.cons_ne_nil _ _
  -- the library writes the greeting
  obtain ⟨-, p, hput, hidle, hsame⟩ | ⟨hlong, -⟩ :=
    sendTrial_spec (outIdle_protReset mem) hsome
  · obtain ⟨p', hwrite, hout, hsame', hfields⟩ := protWrite_spec hidle.toOutState
      PROT_MAX_BUFFER_LENGTH hne
    rw [List.take_of_length_le hlen] at hwrite
    rw [List.drop_of_length_le hlen] at hout
    have hidle' : OutIdle p' [] := { hout with
      no_fields := hfields.trans hidle.no_fields
      no_empty := hsame'.2.2.trans hidle.no_empty }
    -- the server reads it and replies
    let c : Client σ := { server with input := encode greeting }
    have hrests : c.Rests [] := ⟨pending_protReset mem', outIdle_protReset mem', hwrites⟩
    obtain ⟨ps, hread, hps, houts⟩ := protRead_all hrests.pending hlen
    have htake : c.input.take (PROT_MAX_BUFFER_LENGTH + 1) = encode greeting :=
      List.take_of_length_le (Nat.le_succ_of_le hlen)
    have hreads :
        (c.read (some PROT_MAX_BUFFER_LENGTH)).2 = { c with prot := ps, input := [] } := by
      simp only [Client.read, htake, hread, Int.toNat_natCast]
      rw [show c.input = encode greeting from rfl, List.drop_length]
    obtain ⟨htaken, hinput, hsent⟩ := Client.Rests.take_greeting permgr mac
      (c := { c with prot := ps, input := [] })
      ⟨hps, (outIdle_protReset mem').congr houts, hwrites⟩ rfl
    -- the library gets the reply
    let r : Record := ⟨[wordDone, PROTOCOL_VERSION_1_STRING], by decide, by decide, by decide⟩
    have hfit : Fits r.fields := by decide +kernel
    have hpend : Pending p' [] := (pending_protReset mem).congr (hsame.trans hsame')
    obtain ⟨pl, hreadl, hpl, houtl⟩ := protRead_all hpend hfit
    have hrecord : encode r.fields ++ [] = encode r.fields ++ [] := rfl
    obtain ⟨pg, hsameg, ⟨line, b', hline, hreport, hrest, hget, hhold⟩ | ⟨-, -, -, hsome⟩⟩ :=
      protGet_record r hfit hpl (hidle'.congr houtl).no_empty hrecord
    · obtain rfl : b' = [] := (List.append_eq_nil_iff.1 hrest).1
      have hargs : protArgs pg = r.fields := hhold.args.trans hreport
      have hcode : ((reported line).length : Int) ≥ 0 := Int.natCast_nonneg _
      have hgreeted : Handle.greeted ⟨pg, false, .disconnected, protArgs pg⟩
          (reported line).length = (0, ⟨pg, false, .connected, r.fields⟩) := by
        rw [Handle.greeted, if_pos hcode, hargs, if_pos ⟨le_refl 2, rfl, rfl⟩]
      have hgreet : Joint.greet permgr mac mem server =
          (0, ⟨⟨⟨pg, false, .connected, r.fields⟩, .idle, []⟩,
            ({ c with prot := ps, input := [] } : Client σ).take permgr mac, [], []⟩) := by
        have hsent' : (({ c with prot := ps, input := [] } : Client σ).take permgr mac).sent =
            encode r.fields := hsent
        simp only [Joint.greet, hput, hwrite]
        simp only [show ({ server with input := encode greeting } : Client σ) = c from rfl, hreads,
          hsent', hreadl, hget, hgreeted]
      rw [hgreet]
      refine ⟨rfl, ⟨rfl, rfl, rfl, rfl, rfl, ?_, ?_, rfl, htaken, hinput⟩⟩
      · exact (hidle'.congr houtl).congr hsameg
      · exact Or.inr ⟨line, hline, hhold⟩
    · exact absurd rfl hsome
  · exact absurd hlen hlong

end SecLsmManager
