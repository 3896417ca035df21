import SecLsmManager.Protocol.Prot
import SecLsmManager.Server.Listening

/-!
# When the server stops, and whom it sends away

The loop with a clock that never goes back. A client goes for its own doing, or because nothing came
from it for the shut-off time; and the first wait that gets to its end stops the server, with no
client left (`server_shuts_off`).
-/

namespace SecLsmManager

variable {σ : Type*} {n : Nat}

namespace Server

/-! ## Time -/

/-- `tempo`: the milliseconds that `epoll_wait` waits at most; -1 has no end. -/
def serveTempo (shutofftime : Int) : Int :=
  if shutofftime < 0 then -1
  else if shutofftime > INT_MAX / 1000 then INT_MAX
  else shutofftime * 1000

/-- The times of a turn that begins at `clock`: a wait gets to its end when its time is over. -/
structure Ticks (shutofftime clock : Int) (waited : Waited) (env : TurnAnswers n) : Prop where
  now : clock ≤ env.now
  later : env.now ≤ env.later
  ended : waited = .timeout → 0 ≤ shutofftime ∧ clock + serveTempo shutofftime / 1000 ≤ env.later

/-- A state at a loop head, with the time of the end of the last turn. -/
inductive Timed (permgr : PermMgr σ) (mac : Mac σ) (shutofftime : Int) : Server σ n → Int → Prop
  | create (fd : Nat) (system : σ) (log : Bool) {clock : Int} : 0 < clock →
      Timed permgr mac shutofftime (.create fd system log) clock
  | turn {server : Server σ n} {clock : Int} (waited : Waited) (env : TurnAnswers n) :
      Timed permgr mac shutofftime server clock → server.stopped = false →
      (∀ fd hup input, waited = .event fd hup input → server.poll fd ≠ none) →
      (∀ fd ∈ env.accept, server.Closed fd) → Ticks shutofftime clock waited env →
      Timed permgr mac shutofftime (server.turn permgr mac shutofftime waited env) env.later

variable {permgr : PermMgr σ} {mac : Mac σ} {shutofftime clock : Int} {server : Server σ n}

/-- A timed run is a run: what holds of every reached loop head holds here. -/
theorem Timed.reached (h : Timed permgr mac shutofftime server clock) :
    server.Reached permgr mac shutofftime := by
  induction h with
  | create fd system log => exact .create fd system log
  | turn waited env _ hrun hreg hfd _ ih => exact .turn waited env ih hrun hreg hfd

/-! ## The end of a turn -/

/-- The sweep of a slot, by its last time. -/
theorem Sound.sweepClient_time (h : server.Sound) (env : TurnAnswers n) (trig : Int) (ncli : Nat)
    (idx : Fin n) :
    (¬ server.Occupied idx ∧ Server.sweepClient env trig (server, ncli) idx = (server, ncli)) ∨
      (server.Occupied idx ∧ trig < (server.clients idx).lasttime ∧
        Server.sweepClient env trig (server, ncli) idx = (server, ncli + 1)) ∨
      (server.Occupied idx ∧ (server.clients idx).lasttime ≤ trig ∧
        Server.sweepClient env trig (server, ncli) idx = (server.release idx, ncli)) := by
  have hcount : server.Occupied idx → ((Server.sweepClient env trig (server, ncli) idx).2 = ncli ↔
      (server.clients idx).lasttime ≤ trig) := by
    intro hocc
    obtain ⟨client, hclient⟩ := Option.ne_none_iff_exists'.1 hocc
    obtain ⟨hconn, -⟩ := h.occupied idx client hclient
    rcases le_or_gt (server.clients idx).lasttime trig with hold | hnew
    · have hgone : ((server.clientDisconnect idx).clients idx).client.any Client.connected =
          false := by
        simp [clientDisconnect, hclient, hconn, setClient]
      simp [Server.sweepClient, hclient, hold, hgone]
    · simp [Server.sweepClient, hclient, hnew.not_ge, hconn]
  obtain hfree | ⟨hocc, heq⟩ | ⟨hocc, heq⟩ := h.sweepClient env trig ncli idx
  · exact .inl hfree
  · refine .inr (.inl ⟨hocc, not_le.1 fun hold => ?_, heq⟩)
    have hsame := (hcount hocc).2 hold
    rw [heq] at hsame
    exact Nat.succ_ne_self ncli hsame
  · exact .inr (.inr ⟨hocc, (hcount hocc).1 (congrArg Prod.snd heq), heq⟩)

/-- What the sweep of some slots leaves, by their last times. -/
structure Aged (server : Server σ n) (idxs : List (Fin n)) (trig : Int) (ncli : Nat)
    (r : Server σ n × Nat) : Prop where
  status : r.1.stopped = server.stopped ∧ r.1.stoprc = server.stoprc
  lasttime : ∀ idx, (r.1.clients idx).lasttime = (server.clients idx).lasttime
  stays : ∀ idx, r.1.Occupied idx ↔ server.Occupied idx ∧
    (idx ∈ idxs → trig < (server.clients idx).lasttime)
  count_ge : ncli ≤ r.2
  count : r.2 = ncli ↔ ∀ idx ∈ idxs, ¬ r.1.Occupied idx

/-- A slot that is released keeps its last time. -/
theorem release_lasttime (server : Server σ n) (idx j : Fin n) :
    ((server.release idx).clients j).lasttime = (server.clients j).lasttime := by
  simp only [release, Function.update_apply]
  split
  · subst j
    rfl
  · rfl

/-- The released slot is free, and the others are as they were. -/
theorem occupied_release {idx j : Fin n} :
    (server.release idx).Occupied j ↔ j ≠ idx ∧ server.Occupied j := by
  rcases eq_or_ne j idx with rfl | hj
  · exact iff_of_false (not_occupied_release server j) fun h => h.1 rfl
  · rw [and_iff_right hj, Occupied, release_clients hj]
    rfl

/-- What the sweep of some slots leaves, by induction on the slots still to come. -/
theorem Sound.sweepLoop_aged (env : TurnAnswers n) (trig : Int) {idxs : List (Fin n)}
    (h : server.Sound) (ncli : Nat) :
    server.Aged idxs trig ncli (idxs.foldl (Server.sweepClient env trig) (server, ncli)) := by
  induction idxs generalizing server ncli with
  | nil =>
    exact ⟨⟨rfl, rfl⟩, fun _ => rfl,
      fun idx => (and_iff_left fun hm => absurd hm List.not_mem_nil).symm, le_rfl,
      iff_of_true rfl (List.forall_mem_nil _)⟩
  | cons idx idxs ih =>
    rw [List.foldl_cons]
    obtain ⟨hfree, heq⟩ | ⟨hocc, hnew, heq⟩ | ⟨hocc, hold, heq⟩ :=
      h.sweepClient_time env trig ncli idx
    · rw [heq]
      have ha := ih h ncli
      have hstays : ∀ j, Occupied (idxs.foldl (Server.sweepClient env trig) (server, ncli)).1 j ↔
          server.Occupied j ∧ (j ∈ idx :: idxs → trig < (server.clients j).lasttime) := by
        intro j
        rw [ha.stays, List.mem_cons]
        refine and_congr_right fun hj => ?_
        have hne : j ≠ idx := fun heq => hfree (heq ▸ hj)
        rw [or_iff_right hne]
      refine { ha with stays := hstays, count := ha.count.trans ?_ }
      rw [List.forall_mem_cons]
      exact (and_iff_right fun hj => hfree ((hstays idx).1 hj).1).symm
    · rw [heq]
      have ha := ih h (ncli + 1)
      have hge := ha.count_ge
      have hstays : ∀ j,
          Occupied (idxs.foldl (Server.sweepClient env trig) (server, ncli + 1)).1 j ↔
            server.Occupied j ∧ (j ∈ idx :: idxs → trig < (server.clients j).lasttime) := by
        intro j
        rw [ha.stays, List.mem_cons]
        refine and_congr_right fun hj => ⟨fun hrest hm => ?_, fun hall hm => hall (.inr hm)⟩
        rcases hm with rfl | hm
        · exact hnew
        · exact hrest hm
      refine { ha with stays := hstays, count_ge := by omega, count := ?_ }
      have hkept := (hstays idx).2 ⟨hocc, fun _ => hnew⟩
      exact iff_of_false (by omega) fun hnone => hnone idx List.mem_cons_self hkept
    · rw [heq]
      have ha := ih (h.release hocc).1 ncli
      have hstays : ∀ j,
          Occupied (idxs.foldl (Server.sweepClient env trig) (server.release idx, ncli)).1 j ↔
            server.Occupied j ∧ (j ∈ idx :: idxs → trig < (server.clients j).lasttime) := by
        intro j
        rw [ha.stays, occupied_release, release_lasttime, List.mem_cons]
        constructor
        · rintro ⟨⟨hne, hj⟩, hrest⟩
          exact ⟨hj, fun hm => hrest (hm.resolve_left hne)⟩
        · rintro ⟨hj, hall⟩
          refine ⟨⟨?_, hj⟩, fun hm => hall (.inr hm)⟩
          rintro rfl
          exact absurd (hall (.inl rfl)) (not_lt.2 hold)
      refine ⟨ha.status, fun j => (ha.lasttime j).trans (release_lasttime server idx j), hstays,
        ha.count_ge, ha.count.trans ?_⟩
      rw [List.forall_mem_cons]
      refine (and_iff_right fun hj => ?_).symm
      exact absurd (((hstays idx).1 hj).2 List.mem_cons_self) (not_lt.2 hold)

/-- **The sweep** leaves the clients that something came from after `trig`. -/
theorem Sound.sweep_aged (h : server.Sound) (env : TurnAnswers n) (trig : Int) :
    let r := server.sweep env trig
    (r.1.stopped = server.stopped ∧ r.1.stoprc = server.stoprc) ∧
      (∀ idx, (r.1.clients idx).lasttime = (server.clients idx).lasttime) ∧
      (∀ idx, r.1.Occupied idx ↔ server.Occupied idx ∧ trig < (server.clients idx).lasttime) ∧
      (r.2 = 0 ↔ ∀ idx, ¬ r.1.Occupied idx) := by
  have ha : server.Aged (List.finRange n) trig 0 (server.sweep env trig) :=
    h.sweepLoop_aged env trig 0
  have hstays := ha.stays
  have hcount := ha.count
  simp only [List.mem_finRange, forall_const] at hstays hcount
  exact ⟨ha.status, ha.lasttime, hstays, hcount⟩

/-! ## Events -/

/-- The server was stopped by a failure. -/
def Failed (server : Server σ n) : Prop := server.stopped = true → server.stoprc < 0

/-- To stop with a negative status is to fail. -/
theorem Failed.stop (h : server.Failed) {status : Int} (hstatus : status < 0) :
    (server.stop status).Failed := by
  rw [Server.stop]
  split
  · exact h
  · exact fun _ => hstatus

/-- To stop does not touch the slots. -/
theorem stop_clients (server : Server σ n) (status : Int) :
    (server.stop status).clients = server.clients := by
  rw [Server.stop]
  split <;> rfl

/-- The disarming of the listening socket stops the server only when `epoll_ctl` fails. -/
theorem Failed.disarm (h : server.Failed) (env : TurnAnswers n) : (server.disarm env).Failed := by
  rw [Server.disarm]
  dsimp only
  split
  · rename_i hneg
    intro hstopped
    have hpoll : Failed { server with
        poll := (pollitemMod env.disarm server.fd ⟨false, .server⟩ server.poll).2 } := h
    exact hpoll.stop hneg hstopped
  · exact h

/-- A client that is destroyed frees its own slot only. -/
theorem clientDestroy_others (server : Server σ n) {idx j : Fin n} (hj : j ≠ idx) :
    (server.clientDestroy idx).clients j = server.clients j := by
  rw [clientDestroy, clientDisconnect]
  split
  · exact Function.update_of_ne hj _ _
  split
  · simp only [setClient, Function.update_of_ne hj]
  · exact Function.update_of_ne hj _ _

/-- It does not stop the server. -/
theorem Failed.clientDestroy (h : server.Failed) (idx : Fin n) :
    (server.clientDestroy idx).Failed := by
  rw [Server.clientDestroy, clientDisconnect]
  split
  · exact h
  split
  · exact h
  · exact h

/-- What an event makes of the slots: one that is still occupied is as it was, or something came
from it; and only the event of a client frees a slot. -/
structure Served (permgr : PermMgr σ) (mac : Mac σ) (env : TurnAnswers n) (waited : Waited)
    (server server' : Server σ n) : Prop where
  failed : server'.Failed
  lasttime : ∀ idx, server'.Occupied idx →
    (server.Occupied idx ∧ (server'.clients idx).lasttime = (server.clients idx).lasttime) ∨
      (server'.clients idx).lasttime = env.now
  freed : ∀ idx, server.Occupied idx → ¬ server'.Occupied idx →
    ∃ fd hup input reg, waited = .event fd hup input ∧
      server.poll fd = some ⟨reg, .client idx⟩ ∧
      ¬ (server.onClientEvent permgr mac env idx hup).Occupied idx

/-- An event that leaves the slots as they are. -/
theorem Served.same {env : TurnAnswers n} {waited : Waited} {server' : Server σ n}
    (hfailed : server'.Failed) (hclients : server'.clients = server.clients) :
    server.Served permgr mac env waited server' := by
  refine ⟨hfailed, fun idx hocc => .inl ?_, fun idx hocc hfree => absurd ?_ hfree⟩
  · rw [Occupied, hclients] at hocc
    rw [hclients]
    exact ⟨hocc, rfl⟩
  · rw [Occupied, hclients]
    exact hocc

/-- The disarming that follows an event leaves the slots as the event made them. -/
theorem disarm_served {server₀ : Server σ n} {env : TurnAnswers n} {waited : Waited}
    (h : server₀.Served permgr mac env waited server) :
    server₀.Served permgr mac env waited (server.disarm env) := by
  have hclients : (server.disarm env).clients = server.clients := by
    rw [Server.disarm]
    dsimp only
    split
    · exact stop_clients _ _
    · rfl
  refine ⟨h.failed.disarm env, fun idx hocc => ?_, fun idx hocc hfree => h.freed idx hocc ?_⟩
  · rw [Occupied, hclients] at hocc
    rw [hclients]
    exact h.lasttime idx hocc
  · rwa [Occupied, hclients] at hfree

/-- A client is added to a free slot, or the slot stays free. -/
theorem addClient_served (permgr : PermMgr σ) (mac : Mac σ) {idx : Fin n}
    (hidx : ¬ server.Occupied idx) (hfailed : server.Failed) (env : TurnAnswers n)
    (waited : Waited) (fd : Nat) :
    server.Served permgr mac env waited (server.addClient env idx fd).2 := by
  have hothers : ∀ j, j ≠ idx →
      (server.addClient env idx fd).2.clients j = server.clients j := by
    intro j hj
    rw [Server.addClient]
    split
    · exact Function.update_of_ne hj _ _
    dsimp only
    split
    · rw [clientDestroy_others _ hj]
      exact Function.update_of_ne hj _ _
    · exact Function.update_of_ne hj _ _
  have hself : (server.addClient env idx fd).2.Occupied idx →
      ((server.addClient env idx fd).2.clients idx).lasttime = env.now := by
    rw [Server.addClient]
    split
    · intro hocc
      simp [Occupied, setClient] at hocc
    dsimp only
    split
    · intro hocc
      simp [Occupied, setClient, clientDestroy] at hocc
    · simp [setClient]
  have hstatus : (server.addClient env idx fd).2.Failed := by
    rw [Server.addClient]
    split
    · exact hfailed
    dsimp only
    split
    · refine Failed.clientDestroy ?_ idx
      exact hfailed
    · exact hfailed
  refine ⟨hstatus, fun j hocc => ?_, fun j hocc hfree => ?_⟩
  · rcases eq_or_ne j idx with rfl | hj
    · exact .inr (hself hocc)
    · rw [Occupied, hothers j hj] at hocc
      rw [hothers j hj]
      exact .inl ⟨hocc, rfl⟩
  · have hj : j ≠ idx := by
      rintro rfl
      exact hidx hocc
    rw [Occupied, hothers j hj] at hfree
    exact absurd hocc hfree

/-- An event on the listening socket: a client that is accepted has the time of its arrival. -/
theorem onServerEvent_served (hfailed : server.Failed) (env : TurnAnswers n) (waited : Waited)
    (hup input : Bool) :
    server.Served permgr mac env waited (server.onServerEvent env hup input) := by
  rw [Server.onServerEvent]
  split
  · exact .same (hfailed.stop (by decide)) (stop_clients server _)
  split
  · exact .same hfailed rfl
  split
  · exact disarm_served (.same hfailed rfl)
  rename_i idx hslot
  split
  · exact .same hfailed rfl
  rename_i fd _
  have hadded := addClient_served permgr mac (freeSlot_some hslot) hfailed env waited fd
  dsimp only
  split
  · exact hadded
  split
  · exact hadded
  · exact disarm_served hadded

/-- An event of a client: it is served and dated, or its slot is freed. -/
theorem Sound.onClientEvent_served (h : server.Sound) (hfailed : server.Failed)
    (env : TurnAnswers n) {fd : Nat} {reg hup input : Bool} {idx : Fin n}
    (hreg : server.poll fd = some ⟨reg, .client idx⟩) :
    server.Served permgr mac env (.event fd hup input)
      (server.onClientEvent permgr mac env idx hup) := by
  have hothers : (∀ j, j ≠ idx → (server.onClientEvent permgr mac env idx hup).clients j =
      server.clients j) ∧ (server.onClientEvent permgr mac env idx hup).Failed ∧
      ((server.onClientEvent permgr mac env idx hup).Occupied idx →
        ((server.onClientEvent permgr mac env idx hup).clients idx).lasttime = env.now) := by
    rw [Server.onClientEvent]
    cases hclient : (server.clients idx).client with
    | none =>
      refine ⟨fun _ _ => rfl, hfailed, fun hocc => absurd hclient hocc⟩
    | some client =>
      obtain ⟨hconn, -⟩ := h.occupied idx client hclient
      dsimp only
      split
      · rw [drop_connected hclient hconn]
        exact ⟨fun j hj => release_clients hj, hfailed,
          fun hocc => absurd hocc (not_occupied_release server idx)⟩
      generalize hr : clientProcessInput permgr mac env.cuts _ = r
      have hconn' : r.2.connected = true := by
        rw [← hr]
        exact (clientProcessInput_connected permgr mac env.cuts _).trans hconn
      split
      · refine ⟨fun j hj => Function.update_of_ne hj _ _, hfailed, fun _ => ?_⟩
        simp [setClient]
      · have hself : (({ server with system := r.2.system, log := r.2.serverLog }.setClient idx
            { server.clients idx with client := some r.2 }).clients idx).client = some r.2 := by
          simp [setClient]
        rw [drop_connected hself hconn']
        refine ⟨fun j hj => ?_, hfailed, fun hocc => absurd hocc (not_occupied_release _ idx)⟩
        rw [release_clients hj]
        exact Function.update_of_ne hj _ _
  obtain ⟨hothers, hstatus, hself⟩ := hothers
  refine ⟨hstatus, fun j hocc => ?_, fun j hocc hfree => ?_⟩
  · rcases eq_or_ne j idx with rfl | hj
    · exact .inr (hself hocc)
    · rw [Occupied, hothers j hj] at hocc
      rw [hothers j hj]
      exact .inl ⟨hocc, rfl⟩
  · rcases eq_or_ne j idx with rfl | hj
    · exact ⟨fd, hup, input, reg, rfl, hreg, hfree⟩
    · rw [Occupied, hothers j hj] at hfree
      exact absurd hocc hfree

/-- Every result of the wait is one of these. -/
theorem Sound.waitDispatch_served (h : server.Sound) (permgr : PermMgr σ) (mac : Mac σ)
    (hfailed : server.Failed) (env : TurnAnswers n) (waited : Waited) :
    server.Served permgr mac env waited (server.waitDispatch permgr mac env waited).2 := by
  cases waited with
  | timeout | interrupted | failed => exact .same hfailed rfl
  | event fd hup input =>
    rw [Server.waitDispatch]
    split
    · exact .same hfailed rfl
    · exact onServerEvent_served hfailed env _ hup input
    · rename_i reg idx hreg
      exact h.onClientEvent_served hfailed env hreg

/-! ## Turns -/

/-- The clock is not before the last time of any client. -/
structure Dated (server : Server σ n) (clock : Int) : Prop where
  pos : 0 < clock
  clients : ∀ idx, server.Occupied idx →
    0 < (server.clients idx).lasttime ∧ (server.clients idx).lasttime ≤ clock

/-- The time never goes back, so no last time is after the clock. -/
theorem Served.dated {env : TurnAnswers n} {waited : Waited} {server' : Server σ n}
    (h : server.Served permgr mac env waited server') (hdated : server.Dated clock)
    (hticks : Ticks shutofftime clock waited env) : server'.Dated env.later := by
  have hlater := hticks.now.trans hticks.later
  refine ⟨lt_of_lt_of_le hdated.pos hlater, fun idx hocc => ?_⟩
  rcases h.lasttime idx hocc with ⟨hbefore, hsame⟩ | hnow
  · obtain ⟨hpos, hle⟩ := hdated.clients idx hbefore
    rw [hsame]
    exact ⟨hpos, hle.trans hlater⟩
  · rw [hnow]
    exact ⟨lt_of_lt_of_le hdated.pos hticks.now, hticks.later⟩

/-- What a turn can do to the status: the server goes on, or it was stopped by a failure, or it
stops with no client after a wait that got to its end. -/
inductive Status (shutofftime : Int) (waited : Waited) (server' : Server σ n) : Prop
  | runs : server'.stopped = false → Status shutofftime waited server'
  | fails : server'.stopped = true → server'.stoprc < 0 → Status shutofftime waited server'
  | shuts : waited = .timeout → 0 ≤ shutofftime → server'.stopped = true → server'.stoprc = 0 →
      (∀ idx, ¬ server'.Occupied idx) → Status shutofftime waited server'

/-- After an event the server runs or has failed: only the end of a turn may shut it off. -/
theorem Failed.status (h : server.Failed) (shutofftime : Int) (waited : Waited) :
    Status shutofftime waited server := by
  cases hstopped : server.stopped with
  | false => exact .runs hstopped
  | true => exact .fails hstopped (h hstopped)

/-- What a turn makes of the server, once its event is served. -/
structure Ended (shutofftime : Int) (waited : Waited) (env : TurnAnswers n)
    (served server' : Server σ n) : Prop where
  status : Status shutofftime waited server'
  lasttime : ∀ idx, (server'.clients idx).lasttime = (served.clients idx).lasttime
  stays : waited ≠ .failed → ∀ idx, server'.Occupied idx ↔ served.Occupied idx ∧
    (if shutofftime < 0 then 0 else env.later - shutofftime) < (served.clients idx).lasttime
  freed : ∀ idx, server'.Occupied idx → served.Occupied idx
  idle : waited = .timeout → 0 ≤ shutofftime → served.stopped = false →
    (∀ idx, ¬ server'.Occupied idx) → server'.stopped = true ∧ server'.stoprc = 0

/-- **One turn of the loop**, by its event and its times. -/
theorem Sound.turn_ended (h : server.Sound) (permgr : PermMgr σ) (mac : Mac σ)
    (ht : server.Tuned) (hrun : server.stopped = false)
    {waited : Waited} {env : TurnAnswers n} (shutofftime : Int)
    (hreg : ∀ fd hup input, waited = .event fd hup input → server.poll fd ≠ none)
    (hfd : ∀ fd ∈ env.accept, server.Closed fd) :
    Ended shutofftime waited env (server.waitDispatch permgr mac env waited).2
      (server.turn permgr mac shutofftime waited env) := by
  have hfailed : server.Failed := fun hstopped => Bool.noConfusion (hrun.symm.trans hstopped)
  obtain ⟨hsound, -, -⟩ := h.waitDispatch ht permgr mac hfd waited
  obtain ⟨hstatus, -, -⟩ := h.waitDispatch_served permgr mac hfailed env waited
  have hcode : (waited = .failed ↔ (server.waitDispatch permgr mac env waited).1.1 < 0 ∧
      ¬ (server.waitDispatch permgr mac env waited).1.2 = true) ∧
      ((server.waitDispatch permgr mac env waited).1.1 = 0 → waited = .timeout) ∧
      (waited = .timeout → (server.waitDispatch permgr mac env waited).1.1 = 0) := by
    cases waited with
    | timeout | interrupted | failed => simp [Server.waitDispatch]
    | event fd hup input =>
      have hsome := hreg fd hup input rfl
      rw [Server.waitDispatch]
      split
      · rename_i hnone
        exact absurd hnone hsome
      · simp
      · simp
  rw [Server.turn]
  generalize server.waitDispatch permgr mac env waited = r at hsound hstatus hcode ⊢
  obtain ⟨⟨rc, interrupted⟩, served⟩ := r
  obtain ⟨hfails, htimeout, hover⟩ := hcode
  dsimp only at hfails htimeout hover hsound hstatus ⊢
  split
  · rename_i hneg
    have hclients := stop_clients served rc
    have hocc : ∀ idx, (served.stop rc).Occupied idx → served.Occupied idx := by
      intro idx hocc
      rwa [Occupied, hclients] at hocc
    refine ⟨(hstatus.stop hneg.1).status _ _, fun idx => by rw [hclients],
      fun hne => absurd (hfails.2 hneg) hne, hocc, fun hw => ?_⟩
    rw [hover hw] at hneg
    exact absurd hneg.1 (lt_irrefl 0)
  generalize htrig : (if shutofftime < 0 then 0 else env.later - shutofftime) = trig
  obtain ⟨⟨hstopped, hstoprc⟩, hlasttime, hstays, hcount⟩ := hsound.sweep_aged env trig
  generalize served.sweep env trig = swept at hstopped hstoprc hlasttime hstays hcount ⊢
  obtain ⟨swept, ncli⟩ := swept
  dsimp only at hstopped hstoprc hlasttime hstays hcount ⊢
  have hswept : swept.Failed := by
    rw [Failed, hstopped, hstoprc]
    exact hstatus
  -- a server with the clients of the sweep
  have hend : ∀ server' : Server σ n, server'.clients = swept.clients →
      Status shutofftime waited server' →
      (waited = .timeout → 0 ≤ shutofftime → served.stopped = false →
        (∀ idx, ¬ server'.Occupied idx) → server'.stopped = true ∧ server'.stoprc = 0) →
      Ended shutofftime waited env served server' := by
    intro server' hclients hstatus' hover'
    have hocc : ∀ idx, server'.Occupied idx ↔ swept.Occupied idx := by
      intro idx
      rw [Occupied, hclients]
      rfl
    refine ⟨hstatus', fun idx => by rw [hclients, hlasttime], fun _ idx => ?_,
      fun idx hidx => ((hstays idx).1 ((hocc idx).1 hidx)).1, hover'⟩
    rw [hocc, hstays, htrig]
  split
  · rename_i hidle
    obtain ⟨hzero, hnone, hshut⟩ := hidle
    have hclients := stop_clients swept 0
    have hfree : ∀ idx, ¬ (swept.stop 0).Occupied idx := by
      intro idx hocc
      rw [Occupied, hclients] at hocc
      exact hcount.1 hnone idx hocc
    refine hend _ hclients ?_ fun _ _ hrun' _ => ?_
    · cases hs : swept.stopped with
      | true =>
        have hsame : swept.stop 0 = swept := if_pos hs
        rw [hsame]
        exact hswept.status _ _
      | false =>
        have hstop : swept.stop 0 = { swept with stopped := true, stoprc := 0 } :=
          if_neg (by rw [hs]; exact Bool.false_ne_true)
        refine .shuts (htimeout hzero) hshut ?_ ?_ hfree
        · rw [hstop]
        · rw [hstop]
    · have hstop : swept.stop 0 = { swept with stopped := true, stoprc := 0 } :=
        if_neg (by rw [hstopped, hrun']; exact Bool.false_ne_true)
      rw [hstop]
      exact ⟨rfl, rfl⟩
  rename_i hbusy
  have hnot : ∀ {server' : Server σ n}, server'.clients = swept.clients → waited = .timeout →
      0 ≤ shutofftime → (∀ idx, ¬ server'.Occupied idx) →
        server'.stopped = true ∧ server'.stoprc = 0 := by
    intro server' hclients hw hshut hfree
    refine absurd ⟨hover hw, hcount.2 fun idx hocc => hfree idx ?_, hshut⟩ hbusy
    rw [Occupied, hclients]
    exact hocc
  split
  · generalize pollitemMod env.arm swept.fd ⟨true, .server⟩ swept.poll = r
    obtain ⟨rc, poll⟩ := r
    have hpoll : Failed { swept with poll } := hswept
    dsimp only
    split
    · rename_i hneg
      have hclients := stop_clients { swept with poll } rc
      exact hend _ hclients ((hpoll.stop hneg).status _ _) fun hw hshut _ =>
        hnot hclients hw hshut
    · exact hend _ rfl (hpoll.status _ _) fun hw hshut _ => hnot rfl hw hshut
  · exact hend _ rfl (hswept.status _ _) fun hw hshut _ => hnot rfl hw hshut

/-! ## Runs -/

/-- What holds at a loop head. -/
theorem Timed.dated {n : ℕ+} {server : Server σ n} (h : Timed permgr mac shutofftime server clock) :
    server.Dated clock := by
  induction h with
  | create fd system log hclock => exact ⟨hclock, fun idx hocc => absurd rfl hocc⟩
  | @turn server clock waited env htimed hrun hreg hfd hticks ih =>
    have hheads := htimed.reached.heads
    have hfailed : server.Failed := fun hstopped => Bool.noConfusion (hrun.symm.trans hstopped)
    have hended := hheads.sound.turn_ended permgr mac hheads.tuned hrun
      shutofftime hreg hfd
    obtain ⟨hpos, hclients⟩ := (hheads.sound.waitDispatch_served permgr mac
      hfailed env waited).dated ih hticks
    refine ⟨hpos, fun idx hocc => ?_⟩
    rw [hended.lasttime]
    exact hclients idx (hended.freed idx hocc)

end Server

/-- **When the server stops, and whom it sends away.** At a loop head where the server is stopped, a
call failed, or it was idle: no client is left. From any other, and whatever comes next: a wait that
gets to its end stops the server, with no client left; a client is kept by the end of the turn if
and only if something came from it within the shut-off time; and before that only the event of a
client itself sends it away. -/
theorem server_shuts_off {n : ℕ+} {permgr : PermMgr σ} {mac : Mac σ} {shutofftime clock : Int}
    {server : Server σ n} (h : Server.Timed permgr mac shutofftime server clock) :
    (server.stopped = true → server.stoprc < 0 ∨
      0 ≤ shutofftime ∧ server.stoprc = 0 ∧ ∀ idx, (server.clients idx).client = none) ∧
    ∀ waited env, server.stopped = false →
      (∀ fd hup input, waited = .event fd hup input → server.poll fd ≠ none) →
      (∀ fd ∈ env.accept, server.Closed fd) → Server.Ticks shutofftime clock waited env →
      let served := (server.waitDispatch permgr mac env waited).2
      let server' := server.turn permgr mac shutofftime waited env
      (waited = .timeout → shutofftime ≤ INT_MAX / 1000 → server'.stopped = true ∧
        server'.stoprc = 0 ∧ ∀ idx, (server'.clients idx).client = none) ∧
      (waited ≠ .failed → ∀ idx, (server'.clients idx).client ≠ none ↔
        (served.clients idx).client ≠ none ∧
          (0 ≤ shutofftime → env.later < (served.clients idx).lasttime + shutofftime)) ∧
      ∀ idx, (server.clients idx).client ≠ none → (served.clients idx).client = none →
        ∃ fd hup input reg, waited = .event fd hup input ∧
          server.poll fd = some ⟨reg, .client idx⟩ ∧
          ((server.onClientEvent permgr mac env idx hup).clients idx).client = none := by
  refine ⟨fun hstopped => ?_, fun waited env hrun hreg hfd hticks => ?_⟩
  · cases h with
    | create fd system log _ => cases hstopped
    | @turn server clock waited env htimed hrun hreg hfd hticks =>
      have hheads := htimed.reached.heads
      have hended := hheads.sound.turn_ended permgr mac hheads.tuned hrun
        shutofftime hreg hfd
      cases hended.status with
      | runs hgoes => exact Bool.noConfusion (hgoes.symm.trans hstopped)
      | fails _ hneg => exact .inl hneg
      | shuts _ hshut _ hzero hfree => exact .inr ⟨hshut, hzero, fun idx => not_not.1 (hfree idx)⟩
  intro served server'
  have hheads := h.reached.heads
  have hfailed : server.Failed := fun hstopped => Bool.noConfusion (hrun.symm.trans hstopped)
  have hserved := hheads.sound.waitDispatch_served permgr mac hfailed env
    waited
  have hended := hheads.sound.turn_ended permgr mac hheads.tuned hrun
    shutofftime hreg hfd
  have hdated := hserved.dated h.dated hticks
  have hstays : waited ≠ .failed → ∀ idx, server'.Occupied idx ↔ served.Occupied idx ∧
      (0 ≤ shutofftime → env.later < (served.clients idx).lasttime + shutofftime) := by
    intro hwaited idx
    rw [hended.stays hwaited idx]
    refine and_congr_right fun hocc => ?_
    have hpos := (hdated.clients idx hocc).1
    split
    · rename_i hnever
      exact iff_of_true hpos fun hshut => absurd hshut (not_le.2 hnever)
    · rename_i hshut
      rw [← sub_lt_iff_lt_add]
      exact ⟨fun hlt _ => hlt, fun hlt => hlt (not_lt.1 hshut)⟩
  refine ⟨fun hw hmax => ?_, hstays, fun idx hocc hfree => ?_⟩
  · -- nothing came for the whole wait
    obtain ⟨hshut, hover⟩ := hticks.ended hw
    have htempo : Server.serveTempo shutofftime / 1000 = shutofftime := by
      rw [Server.serveTempo, if_neg (not_lt.2 hshut), if_neg (not_lt.2 hmax)]
      exact Int.mul_ediv_cancel _ (by decide)
    have hsame : served = server := by
      subst hw
      rfl
    have hnone : ∀ idx, ¬ server'.Occupied idx := by
      intro idx hocc'
      have hne : waited ≠ .failed := by
        rw [hw]
        exact Waited.noConfusion
      obtain ⟨hbefore, hlate⟩ := (hstays hne idx).1 hocc'
      rw [hsame] at hbefore hlate
      have hle := (h.dated.clients idx hbefore).2
      have hlt := hlate hshut
      omega
    have hrun' : served.stopped = false := by
      rw [hsame]
      exact hrun
    obtain ⟨hstopped, hzero⟩ := hended.idle hw hshut hrun' hnone
    exact ⟨hstopped, hzero, fun idx => not_not.1 (hnone idx)⟩
  · obtain ⟨fd, hup, input, reg, hwaited, hpoll, hgone⟩ :=
      hserved.freed idx hocc (not_not_intro hfree)
    exact ⟨fd, hup, input, reg, hwaited, hpoll, not_not.1 hgone⟩

/-- A turn in which nothing comes for ten seconds. -/
def quietTurn : TurnAnswers 1 := { acceptedTurn with accept := none, later := 11 }

/-- A connection, and nothing after it. -/
theorem server_shuts_off_idle :
    let server := (Server.create 3 () false : Server Unit 1).turn .idle .idle 10
      (.event 3 false true) acceptedTurn
    let server' := server.turn .idle .idle 10 .timeout quietTurn
    server'.stopped = true ∧ server'.stoprc = 0 ∧ ∀ idx, (server'.clients idx).client = none := by
  intro server server'
  have hcreate : Server.Timed .idle .idle 10 (Server.create 3 () false : Server Unit 1) 1 :=
    .create 3 () false Int.one_pos
  have htimed : Server.Timed .idle .idle 10 server 1 := by
    refine .turn (.event 3 false true) acceptedTurn hcreate rfl (fun fd hup input h => ?_)
      (fun fd h => ?_) ⟨le_rfl, le_rfl, fun h => Waited.noConfusion h⟩
    · cases h
      exact Option.some_ne_none _
    · cases h
      exact ⟨by decide, fun idx hocc => absurd rfl hocc⟩
  have hticks : Server.Ticks 10 1 .timeout quietTurn :=
    ⟨by decide, by decide, fun _ => ⟨by decide, by decide⟩⟩
  have haccept : ∀ fd ∈ quietTurn.accept, server.Closed fd := by
    intro fd h
    cases h
  have hturn := (server_shuts_off (n := 1) htimed).2 .timeout quietTurn (by decide +kernel)
    (fun fd hup input h => Waited.noConfusion h) haccept hticks
  exact hturn.1 rfl (by decide)

end SecLsmManager
