import SecLsmManager.Server.Connected
import SecLsmManager.Server.Server
import Mathlib.Data.List.FinRange
import Mathlib.Data.PNat.Basic

/-!
# The server listens

The listening socket is armed exactly when a slot is free. It is disarmed by the accept that fills
the last slot, and only then, and armed again at the end of each turn that finds a free slot once
the server is deaf. The invariant of the state at any time is `Server.Sound`; the end of a turn
restores the rest.
-/

namespace SecLsmManager

variable {σ : Type*} {n : Nat}

namespace Server

/-- The listening socket is armed for `EPOLLIN`. -/
def Armed (server : Server σ n) : Prop := server.poll server.fd = some ⟨true, .server⟩

def Occupied (server : Server σ n) (idx : Fin n) : Prop := (server.clients idx).client ≠ none

def Full (server : Server σ n) : Prop := ∀ idx, server.Occupied idx

/-- The poll set holds the listening socket and the descriptor of each occupied slot, and nothing
else. A server whose socket is not armed is deaf. -/
structure Sound (server : Server σ n) : Prop where
  listening : ∃ input, server.poll server.fd = some ⟨input, .server⟩
  deaf : ¬ server.Armed → server.deaf = true
  occupied : ∀ idx client, (server.clients idx).client = some client →
    client.connected = true ∧ (server.clients idx).fd ≠ server.fd ∧
      server.poll (server.clients idx).fd = some ⟨true, .client idx⟩
  registered : ∀ fd, server.poll fd ≠ none →
    fd = server.fd ∨ ∃ idx, server.Occupied idx ∧ (server.clients idx).fd = fd

/-- Two occupied slots have two descriptors. -/
theorem Sound.fd_injective {server : Server σ n} (h : server.Sound) {i j : Fin n}
    (hi : server.Occupied i) (hj : server.Occupied j)
    (heq : (server.clients i).fd = (server.clients j).fd) : i = j := by
  obtain ⟨client, hclient⟩ := Option.ne_none_iff_exists'.1 hi
  obtain ⟨client', hclient'⟩ := Option.ne_none_iff_exists'.1 hj
  have hpoll := (h.occupied i client hclient).2.2
  rw [heq, (h.occupied j client' hclient').2.2] at hpoll
  exact (PollItem.client.inj (Registration.mk.inj (Option.some.inj hpoll)).2).symm

/-! ## The operations -/

/-- What a slot leaves that is freed. -/
def release (server : Server σ n) (idx : Fin n) : Server σ n :=
  { server with
    poll := closeFd (server.clients idx).fd server.poll
    clients := Function.update server.clients idx { server.clients idx with client := none } }

/-- A descriptor that is closed need not be removed from the set before. -/
theorem closeFd_del (ok : Bool) (fd : Nat) (poll : PollSet n) :
    closeFd fd (pollitemDel ok fd poll).2 = closeFd fd poll := by
  rw [pollitemDel]
  split <;> simp [closeFd]

/-- To close a descriptor that is not in the set changes nothing of it. -/
theorem closeFd_none {fd : Nat} {poll : PollSet n} (h : poll fd = none) :
    closeFd fd poll = poll := by
  rw [closeFd, ← h, Function.update_eq_self]

/-- A client that is dropped while connected frees its slot. -/
theorem drop_connected {server : Server σ n} {idx : Fin n} {client : Client σ}
    (hclient : (server.clients idx).client = some client) (hconn : client.connected = true)
    (ok : Bool) : server.drop ok idx = server.release idx := by
  simp only [drop, clientDestroy, clientDisconnect, hclient, hconn, if_true, setClient,
    Function.update_idem, closeFd_del, release]

/-- So does one that was disconnected just before. -/
theorem drop_disconnected {server : Server σ n} {idx : Fin n} {client : Client σ}
    (hclient : (server.clients idx).client = some client) (hconn : client.connected = true)
    (ok : Bool) : (server.clientDisconnect idx).drop ok idx = server.release idx := by
  have hdel : (pollitemDel ok (server.clients idx).fd
      (closeFd (server.clients idx).fd server.poll)).2 =
      closeFd (server.clients idx).fd server.poll := by
    simp [pollitemDel, closeFd]
  simp [drop, clientDestroy, clientDisconnect, hclient, hconn, setClient, release, hdel]

/-- The other slots are as they were. -/
theorem release_clients {server : Server σ n} {idx j : Fin n} (hj : j ≠ idx) :
    (server.release idx).clients j = server.clients j :=
  Function.update_of_ne hj _ _

/-- The slot is free. -/
theorem not_occupied_release (server : Server σ n) (idx : Fin n) :
    ¬ (server.release idx).Occupied idx := by
  simp [Occupied, release]

/-- **A slot is freed.** -/
theorem Sound.release {server : Server σ n} (h : server.Sound) {idx : Fin n}
    (hidx : server.Occupied idx) : (server.release idx).Sound ∧
      (server.release idx).poll server.fd = server.poll server.fd := by
  obtain ⟨client, hclient⟩ := Option.ne_none_iff_exists'.1 hidx
  obtain ⟨-, hne, -⟩ := h.occupied idx client hclient
  have hpoll : (server.release idx).poll server.fd = server.poll server.fd :=
    Function.update_of_ne hne.symm _ _
  have hother : ∀ {j : Fin n}, (server.release idx).Occupied j → j ≠ idx := by
    rintro j hj rfl
    exact not_occupied_release server j hj
  refine ⟨⟨?_, ?_, ?_, ?_⟩, hpoll⟩
  · obtain ⟨input, hinput⟩ := h.listening
    exact ⟨input, hpoll.trans hinput⟩
  · intro hnot
    exact h.deaf fun harmed => hnot (hpoll.trans harmed)
  · intro j client' hj
    have hji : j ≠ idx := hother (by rw [Occupied, hj]; nofun)
    rw [release_clients hji] at hj ⊢
    obtain ⟨hconn, hfd, hreg⟩ := h.occupied j client' hj
    refine ⟨hconn, hfd, ?_⟩
    have hdiff : (server.clients j).fd ≠ (server.clients idx).fd :=
      fun heq => hji (h.fd_injective (by rw [Occupied, hj]; nofun) hidx heq)
    exact (Function.update_of_ne hdiff _ _).trans hreg
  · intro fd hfd
    have hfdne : fd ≠ (server.clients idx).fd := by
      rintro rfl
      exact hfd (Function.update_self _ _ _)
    have hreg : server.poll fd ≠ none := by
      rwa [show (server.release idx).poll fd = server.poll fd from
        Function.update_of_ne hfdne _ _] at hfd
    obtain hlisten | ⟨j, hj, hjfd⟩ := h.registered fd hreg
    · exact .inl hlisten
    · have hji : j ≠ idx := by
        rintro rfl
        exact hfdne hjfd.symm
      refine .inr ⟨j, ?_, ?_⟩
      · rw [Occupied, release_clients hji]
        exact hj
      · rw [release_clients hji]
        exact hjfd

/-- A full server is not armed, unless it stops. -/
def Tuned (server : Server σ n) : Prop :=
  server.stopped = false → server.Full → ¬ server.Armed

/-- A server that stops keeps its poll set. -/
theorem Sound.stop {server : Server σ n} (h : server.Sound) (status : Int) :
    (server.stop status).Sound ∧ (server.stop status).stopped = true ∧
      (server.stop status).fd = server.fd := by
  rw [Server.stop]
  cases hstopped : server.stopped with
  | true => exact ⟨h, hstopped, rfl⟩
  | false => exact ⟨⟨h.listening, h.deaf, h.occupied, h.registered⟩, rfl, rfl⟩

/-- A client that stays, with what it does to the system. -/
theorem Sound.keep {server : Server σ n} (h : server.Sound) {idx : Fin n}
    (hidx : server.Occupied idx) {client : Client σ} (hconn : client.connected = true)
    (lasttime : Int) (system : σ) (log : Bool) :
    ({ server with system, log }.setClient idx
      { server.clients idx with client := some client, lasttime }).Sound := by
  have hfd : ∀ j, (Function.update server.clients idx
      { server.clients idx with client := some client, lasttime } j).fd =
        (server.clients j).fd := by
    intro j
    rw [Function.update_apply]
    split
    · subst j
      rfl
    · rfl
  refine ⟨h.listening, h.deaf, fun j client' hj => ?_, fun fd hreg => ?_⟩
  · simp only [setClient] at hj ⊢
    rw [hfd]
    cases Decidable.em (j = idx) with
    | inl heq =>
      subst heq
      obtain ⟨client₀, hclient₀⟩ := Option.ne_none_iff_exists'.1 hidx
      rw [Function.update_self] at hj
      obtain rfl := Option.some.inj hj
      exact ⟨hconn, (h.occupied j client₀ hclient₀).2⟩
    | inr hne =>
      rw [Function.update_of_ne hne] at hj
      exact h.occupied j client' hj
  · obtain hlisten | ⟨j, hj, hjfd⟩ := h.registered fd hreg
    · exact .inl hlisten
    · refine .inr ⟨j, ?_, (hfd j).trans hjfd⟩
      simp only [Occupied, setClient, Function.update_apply]
      split
      · nofun
      · exact hj

/-- A client that stays leaves the same slots occupied. -/
theorem occupied_keep {server : Server σ n} {idx : Fin n} {slot : ServerClient σ}
    (hslot : slot.client ≠ none) (hidx : server.Occupied idx) (j : Fin n) :
    (server.setClient idx slot).Occupied j ↔ server.Occupied j := by
  simp only [Occupied, setClient, Function.update_apply]
  split
  · subst j
    exact iff_of_true hslot hidx
  · rfl

/-- **The socket is disarmed**, or the server stops. -/
theorem Sound.disarm {server : Server σ n} (h : server.Sound) (env : TurnAnswers n) :
    (server.disarm env).Sound ∧ (server.disarm env).Tuned ∧
      (server.disarm env).fd = server.fd := by
  obtain ⟨input, hinput⟩ := h.listening
  rw [Server.disarm, pollitemMod]
  cases env.disarm with
  | true =>
    -- the registration of the socket is replaced
    have hself : Function.update server.poll server.fd (some ⟨false, .server⟩) server.fd =
        some ⟨false, .server⟩ := Function.update_self _ _ _
    have hunarmed : ¬ (some ⟨false, .server⟩ : Option (Registration n)) = some ⟨true, .server⟩ := by
      simp
    simp only [hinput, Option.isSome_some, Bool.and_self, if_true, lt_irrefl, if_false]
    refine ⟨⟨⟨false, hself⟩, fun _ => rfl, fun idx client hidx => ?_, fun fd hfd => ?_⟩, ?_,
      trivial⟩
    · obtain ⟨hconn, hne, hreg⟩ := h.occupied idx client hidx
      exact ⟨hconn, hne, (Function.update_of_ne hne _ _).trans hreg⟩
    · cases Decidable.em (fd = server.fd) with
      | inl heq => exact .inl heq
      | inr hne =>
        have hsame : Function.update server.poll server.fd (some ⟨false, .server⟩) fd =
            server.poll fd := Function.update_of_ne hne _ _
        exact h.registered fd (hsame ▸ hfd)
    · exact fun _ _ harmed => hunarmed (hself.symm.trans harmed)
  | false =>
    obtain ⟨hsound, hstopped, hfd⟩ := h.stop (-1)
    simp only [Bool.false_and, Bool.false_eq_true, if_false, Int.reduceNeg, Int.reduceLT, if_true]
    refine ⟨⟨hsound.listening, fun _ => rfl, hsound.occupied, hsound.registered⟩, ?_, hfd⟩
    intro hrun
    exact absurd (hstopped.symm.trans hrun) Bool.noConfusion

/-- A descriptor that is not open. -/
def Closed (server : Server σ n) (fd : Nat) : Prop :=
  fd ≠ server.fd ∧ ∀ idx, server.Occupied idx → (server.clients idx).fd ≠ fd

/-- A descriptor that is not open is not in the poll set. -/
theorem Sound.closed {server : Server σ n} (h : server.Sound) {fd : Nat} (hfd : server.Closed fd) :
    server.poll fd = none := by
  by_contra hreg
  obtain hlisten | ⟨idx, hidx, heq⟩ := h.registered fd hreg
  · exact hfd.1 hlisten
  · exact hfd.2 idx hidx heq

/-- A free slot may hold anything else. -/
theorem Sound.free {server : Server σ n} (h : server.Sound) {idx : Fin n}
    (hidx : ¬ server.Occupied idx) {slot : ServerClient σ} (hslot : slot.client = none) :
    (server.setClient idx slot).Sound ∧ ¬ (server.setClient idx slot).Full := by
  have hfree : ¬ (server.setClient idx slot).Occupied idx := by
    simp [Occupied, setClient, hslot]
  refine ⟨⟨h.listening, h.deaf, fun j client hj => ?_, fun fd hreg => ?_⟩, fun hf => hfree (hf idx)⟩
  · have hne : j ≠ idx := by
      rintro rfl
      exact hfree (by rw [Occupied, hj]; nofun)
    simp only [setClient, Function.update_of_ne hne] at hj ⊢
    exact h.occupied j client hj
  · obtain hlisten | ⟨j, hj, hjfd⟩ := h.registered fd hreg
    · exact .inl hlisten
    · have hne : j ≠ idx := by
        rintro rfl
        exact hidx hj
      refine .inr ⟨j, ?_, ?_⟩
      · simpa only [Occupied, setClient, Function.update_of_ne hne] using hj
      · simpa only [setClient, Function.update_of_ne hne] using hjfd

/-- **A client is added** to a free slot, or the slot stays free. -/
theorem Sound.addClient {server : Server σ n} (h : server.Sound) {idx : Fin n}
    (hidx : ¬ server.Occupied idx) {fd : Nat} (hfd : server.Closed fd) (env : TurnAnswers n) :
    let r := server.addClient env idx fd
    r.2.Sound ∧ r.2.fd = server.fd ∧ (r.1 < 0 → ¬ r.2.Full) ∧
      (¬ r.1 < 0 → r.2.poll r.2.fd = server.poll server.fd) := by
  have hclosed := h.closed hfd
  have hnomem : -ENOMEM < 0 := by decide
  have herror : (-1 : Int) < 0 := by decide
  intro r
  cases hcreate : env.create with
  | none =>
    have hr : r = (-ENOMEM, server.setClient idx { server.clients idx with client := none }) := by
      simp only [r, Server.addClient, hcreate, closeFd_none hclosed]
    obtain ⟨hsound, hfull⟩ :=
      @Sound.free _ _ _ h _ hidx { server.clients idx with client := none } rfl
    rw [hr]
    exact ⟨hsound, rfl, fun _ => hfull, fun hneg => absurd hnomem hneg⟩
  | some mems =>
    obtain ⟨mem, idmem⟩ := mems
    cases hadd : env.add with
    | false =>
      have hr : r = (-1, server.setClient idx ⟨none, fd, env.now⟩) := by
        simp [r, Server.addClient, hcreate, pollitemAdd, hadd, clientDestroy, clientDisconnect,
          setClient, clientCreate, closeFd_none hclosed]
      obtain ⟨hsound, hfull⟩ := @Sound.free _ _ _ h _ hidx ⟨none, fd, env.now⟩ rfl
      rw [hr]
      exact ⟨hsound, rfl, fun _ => hfull, fun hneg => absurd herror hneg⟩
    | true =>
      let client := clientCreate mem idmem server.system server.log env.answers env.writes []
      have hr : r = (0, { server.setClient idx ⟨some client, fd, env.now⟩ with
          poll := Function.update server.poll fd (some ⟨true, .client idx⟩) }) := by
        simp [r, client, Server.addClient, hcreate, pollitemAdd, hadd, setClient, hclosed]
      have hlisten : Function.update server.poll fd (some ⟨true, .client idx⟩) server.fd =
          server.poll server.fd := Function.update_of_ne hfd.1.symm _ _
      rw [hr]
      refine ⟨⟨?_, ?_, ?_, ?_⟩, rfl, fun hneg => absurd hneg (lt_irrefl 0), fun _ => hlisten⟩
      · obtain ⟨input, hinput⟩ := h.listening
        exact ⟨input, hlisten.trans hinput⟩
      · intro hnot
        exact h.deaf fun harmed => hnot (hlisten.trans harmed)
      · intro j client' hj
        simp only [setClient] at hj ⊢
        cases Decidable.em (j = idx) with
        | inl heq =>
          subst heq
          rw [Function.update_self] at hj ⊢
          obtain rfl := Option.some.inj hj
          exact ⟨rfl, hfd.1, Function.update_self _ _ _⟩
        | inr hne =>
          rw [Function.update_of_ne hne] at hj ⊢
          obtain ⟨hconn, hjfd, hreg⟩ := h.occupied j client' hj
          have hdiff := hfd.2 j (by rw [Occupied, hj]; nofun)
          exact ⟨hconn, hjfd, (Function.update_of_ne hdiff _ _).trans hreg⟩
      · intro fd' hreg
        cases Decidable.em (fd' = fd) with
        | inl heq =>
          refine .inr ⟨idx, ?_, ?_⟩
          · simp [Occupied, setClient]
          · simp [setClient, heq]
        | inr hne =>
          have hsame : Function.update server.poll fd (some ⟨true, .client idx⟩) fd' =
              server.poll fd' := Function.update_of_ne hne _ _
          obtain hlisten | ⟨j, hj, hjfd⟩ := h.registered fd' (hsame ▸ hreg)
          · exact .inl hlisten
          · have hji : j ≠ idx := by
              rintro rfl
              exact hidx hj
            refine .inr ⟨j, ?_, ?_⟩
            · simpa only [Occupied, setClient, Function.update_of_ne hji] using hj
            · simpa only [setClient, Function.update_of_ne hji] using hjfd

/-- The slot that is found is free. -/
theorem freeSlot_some {server : Server σ n} {idx : Fin n} (h : server.freeSlot = some idx) :
    ¬ server.Occupied idx := by
  have hfind := List.find?_some h
  simpa [Occupied] using hfind

/-! ## Events -/

/-- What an event keeps. -/
structure Kept (server server' : Server σ n) : Prop where
  sound : server'.Sound
  tuned : server'.Tuned
  fd : server'.fd = server.fd

/-- An event on the listening socket, with a client that may be accepted and the disarming that may
follow. -/
theorem Sound.onServerEvent {server : Server σ n} (h : server.Sound) (ht : server.Tuned)
    {env : TurnAnswers n} (hfd : ∀ fd ∈ env.accept, server.Closed fd) (hup input : Bool) :
    server.Kept (server.onServerEvent env hup input) := by
  rw [Server.onServerEvent]
  cases hup with
  | true =>
    obtain ⟨hsound, hstopped, hsame⟩ := h.stop (-EPIPE)
    rw [if_pos rfl]
    exact ⟨hsound, fun hrun => absurd (hstopped.symm.trans hrun) Bool.noConfusion, hsame⟩
  | false =>
    rw [if_neg Bool.false_ne_true]
    cases input with
    | false => exact ⟨h, ht, rfl⟩
    | true =>
      rw [if_neg (not_not_intro rfl)]
      cases hslot : server.freeSlot with
      | none =>
        obtain ⟨hsound, htuned, hsame⟩ := h.disarm env
        exact ⟨hsound, htuned, hsame⟩
      | some idx =>
        cases haccept : env.accept with
        | none => exact ⟨h, ht, rfl⟩
        | some fd =>
          obtain ⟨hsound, hsame, hfailed, hadded⟩ :=
            h.addClient (freeSlot_some hslot) (hfd fd haccept) env
          dsimp only
          split
          · rename_i hneg
            exact ⟨hsound, fun _ hfull => absurd hfull (hfailed hneg), hsame⟩
          · split
            · rename_i hnext
              obtain ⟨next, -, hfree⟩ := hnext
              refine ⟨hsound, fun _ hfull => absurd (Option.isNone_iff_eq_none.1 hfree) ?_, hsame⟩
              exact hfull next
            · obtain ⟨hsound', htuned, hsame'⟩ := hsound.disarm env
              exact ⟨hsound', htuned, hsame'.trans hsame⟩

/-- An event of a client, which stays or goes. -/
theorem Sound.onClientEvent {server : Server σ n} (h : server.Sound) (ht : server.Tuned)
    (permgr : PermMgr σ) (mac : Mac σ) (env : TurnAnswers n) (idx : Fin n) (hup : Bool) :
    server.Kept (server.onClientEvent permgr mac env idx hup) := by
  rw [Server.onClientEvent]
  cases hclient : (server.clients idx).client with
  | none => exact ⟨h, ht, rfl⟩
  | some client =>
    have hidx : server.Occupied idx := by rw [Occupied, hclient]; nofun
    obtain ⟨hconn, -⟩ := h.occupied idx client hclient
    cases hup with
    | true =>
      dsimp only
      rw [if_pos rfl, drop_connected hclient hconn]
      exact ⟨(h.release hidx).1,
        fun _ hfull => absurd (hfull idx) (not_occupied_release server idx), rfl⟩
    | false =>
      dsimp only
      rw [if_neg Bool.false_ne_true]
      generalize hr : clientProcessInput permgr mac env.cuts _ = r
      have hconn' : r.2.connected = true := by
        rw [← hr]
        exact (clientProcessInput_connected permgr mac env.cuts _).trans hconn
      split
      · have hkeep := h.keep hidx hconn' env.now r.2.system r.2.serverLog
        refine ⟨hkeep, fun hrun hfull => ht hrun fun j => ?_, rfl⟩
        exact (occupied_keep (by nofun) hidx j).1 (hfull j)
      · have hkeep := h.keep hidx hconn' (server.clients idx).lasttime r.2.system r.2.serverLog
        have hself : (({ server with system := r.2.system, log := r.2.serverLog }.setClient idx
            { server.clients idx with client := some r.2 }).clients idx).client = some r.2 := by
          simp [setClient]
        rw [drop_connected hself hconn']
        exact ⟨(hkeep.release (by rw [Occupied, hself]; nofun)).1,
          fun _ hfull => absurd (hfull idx) (not_occupied_release _ idx), rfl⟩

/-- **Any event** keeps the state sound. -/
theorem Sound.waitDispatch {server : Server σ n} (h : server.Sound) (ht : server.Tuned)
    (permgr : PermMgr σ) (mac : Mac σ) {env : TurnAnswers n}
    (hfd : ∀ fd ∈ env.accept, server.Closed fd) (waited : Waited) :
    server.Kept (server.waitDispatch permgr mac env waited).2 := by
  cases waited with
  | timeout | interrupted | failed => exact ⟨h, ht, rfl⟩
  | event fd hup input =>
    rw [Server.waitDispatch]
    split
    · exact ⟨h, ht, rfl⟩
    · exact h.onServerEvent ht hfd hup input
    · exact h.onClientEvent ht permgr mac env _ hup

/-! ## The end of a turn -/

/-- The sweep of a slot: it is free, or its client stays, or the slot is freed. -/
theorem Sound.sweepClient {server : Server σ n} (h : server.Sound) (env : TurnAnswers n)
    (trig : Int) (ncli : Nat) (idx : Fin n) :
    (¬ server.Occupied idx ∧ sweepClient env trig (server, ncli) idx = (server, ncli)) ∨
      (server.Occupied idx ∧ sweepClient env trig (server, ncli) idx = (server, ncli + 1)) ∨
      (server.Occupied idx ∧
        sweepClient env trig (server, ncli) idx = (server.release idx, ncli)) := by
  cases hclient : (server.clients idx).client with
  | none =>
    refine .inl ⟨not_not_intro hclient, ?_⟩
    simp [Server.sweepClient, hclient]
  | some client =>
    have hidx : server.Occupied idx := by rw [Occupied, hclient]; nofun
    obtain ⟨hconn, -⟩ := h.occupied idx client hclient
    cases Decidable.em ((server.clients idx).lasttime ≤ trig) with
    | inl hold =>
      refine .inr (.inr ⟨hidx, ?_⟩)
      have hgone : ((server.clientDisconnect idx).clients idx).client.any Client.connected =
          false := by
        simp [clientDisconnect, hclient, hconn, setClient]
      simp only [Server.sweepClient, hclient, Option.isNone_some, Bool.false_eq_true, if_false,
        if_pos hold, hgone, drop_disconnected hclient hconn]
    | inr hnew =>
      refine .inr (.inl ⟨hidx, ?_⟩)
      simp [Server.sweepClient, hclient, hnew, hconn]

/-- What the sweep of some slots leaves: slots are only freed, and those that are still occupied
are counted. -/
structure Swept (server : Server σ n) (idxs : List (Fin n)) (ncli : Nat)
    (r : Server σ n × Nat) : Prop where
  sound : r.1.Sound
  fd : r.1.fd = server.fd
  stopped : r.1.stopped = server.stopped
  poll : r.1.poll server.fd = server.poll server.fd
  freed : ∀ idx, r.1.Occupied idx → server.Occupied idx
  others : ∀ idx, idx ∉ idxs → r.1.clients idx = server.clients idx
  count_le : r.2 ≤ ncli + idxs.length
  count : r.2 = ncli + idxs.length ↔ ∀ idx ∈ idxs, r.1.Occupied idx

/-- The sweep, by induction on the slots still to come. -/
theorem Sound.sweepLoop (env : TurnAnswers n) (trig : Int) : ∀ {idxs : List (Fin n)}
    {server : Server σ n}, server.Sound → idxs.Nodup → ∀ ncli,
      server.Swept idxs ncli (idxs.foldl (Server.sweepClient env trig) (server, ncli))
  | [], _, h, _, ncli =>
    { sound := h, fd := rfl, stopped := rfl, poll := rfl, freed := fun _ => id
      others := fun _ _ => rfl, count_le := le_rfl, count := iff_of_true rfl nofun }
  | idx :: idxs, server, h, hnodup, ncli => by
    obtain ⟨hidx, hnodup⟩ := List.nodup_cons.1 hnodup
    rw [List.foldl_cons]
    obtain ⟨hfree, heq⟩ | ⟨hocc, heq⟩ | ⟨hocc, heq⟩ := h.sweepClient env trig ncli idx
    · rw [heq]
      have hs := Sound.sweepLoop env trig h hnodup ncli
      have hcount := hs.count_le
      have hnot : ¬ Occupied (idxs.foldl (Server.sweepClient env trig) (server, ncli)).1 idx :=
        fun hm => hfree (hs.freed idx hm)
      refine { hs with others := fun j hj => ?_, count_le := ?_, count := ?_ }
      · exact hs.others j fun hm => hj (List.mem_cons_of_mem _ hm)
      · rw [List.length_cons]
        omega
      · rw [List.length_cons]
        exact iff_of_false (by omega) fun hall => hnot (hall idx List.mem_cons_self)
    · rw [heq]
      have hs := Sound.sweepLoop env trig h hnodup (ncli + 1)
      have hstays :
          Occupied (idxs.foldl (Server.sweepClient env trig) (server, ncli + 1)).1 idx := by
        rw [Occupied, hs.others idx hidx]
        exact hocc
      refine { hs with others := fun j hj => ?_, count_le := ?_, count := ?_ }
      · exact hs.others j fun hm => hj (List.mem_cons_of_mem _ hm)
      · have hcount := hs.count_le
        rw [List.length_cons]
        omega
      · rw [List.forall_mem_cons, and_iff_right hstays, ← hs.count, List.length_cons]
        omega
    · rw [heq]
      obtain ⟨hsound, hpoll⟩ := h.release hocc
      have hs := Sound.sweepLoop env trig hsound hnodup ncli
      have hcount := hs.count_le
      have hnot : ¬ Occupied (idxs.foldl (Server.sweepClient env trig)
          (server.release idx, ncli)).1 idx :=
        fun hm => not_occupied_release server idx (hs.freed idx hm)
      exact
        { sound := hs.sound
          fd := hs.fd
          stopped := hs.stopped
          poll := hs.poll.trans hpoll
          freed := fun j hj => by
            have hj' := hs.freed j hj
            have hji : j ≠ idx := by
              rintro rfl
              exact not_occupied_release server j hj'
            rwa [Occupied, release_clients hji] at hj'
          others := fun j hj => by
            have hji : j ≠ idx := fun heq => hj (heq ▸ List.mem_cons_self)
            rw [hs.others j fun hm => hj (List.mem_cons_of_mem _ hm), release_clients hji]
          count_le := by
            rw [List.length_cons]
            omega
          count := by
            rw [List.length_cons]
            exact iff_of_false (by omega) fun hall => hnot (hall idx List.mem_cons_self) }

/-- The sweep counts the clients that stay: fewer than the slots exactly when a slot is free. -/
theorem Sound.sweep {server : Server σ n} (h : server.Sound) (env : TurnAnswers n) (trig : Int) :
    let r := server.sweep env trig
    r.1.Sound ∧ r.1.fd = server.fd ∧ r.1.stopped = server.stopped ∧
      r.1.poll server.fd = server.poll server.fd ∧ (r.1.Full → server.Full) ∧
      (r.2 < n ↔ ¬ r.1.Full) := by
  have hs : server.Swept (List.finRange n) 0 (server.sweep env trig) :=
    Sound.sweepLoop env trig h (List.nodup_finRange n) 0
  refine ⟨hs.sound, hs.fd, hs.stopped, hs.poll, fun hfull idx => hs.freed idx (hfull idx), ?_⟩
  have hcount := hs.count
  have hle := hs.count_le
  simp only [Nat.zero_add, List.length_finRange, List.mem_finRange, forall_const] at hcount hle
  rw [Full, ← hcount]
  exact ⟨fun hlt => hlt.ne, fun hne => lt_of_le_of_ne hle hne⟩

/-- The state at a loop head. -/
structure Heads (server : Server σ n) : Prop where
  sound : server.Sound
  armed : server.stopped = false → (server.Armed ↔ ¬ server.Full)

/-- At a loop head a full server is not armed. -/
theorem Heads.tuned {server : Server σ n} (h : server.Heads) : server.Tuned :=
  fun hrun hfull harmed => (h.armed hrun).1 harmed hfull

/-- A server that stops may leave its loop in any sound state. -/
theorem Heads.stop {server : Server σ n} (h : server.Sound) (status : Int) :
    (server.stop status).Heads := by
  obtain ⟨hsound, hstopped, -⟩ := h.stop status
  exact ⟨hsound, fun hrun => absurd (hstopped.symm.trans hrun) Bool.noConfusion⟩

/-- **The socket is armed again.** -/
theorem Sound.arm {server : Server σ n} (h : server.Sound) (hfull : ¬ server.Full) (ok : Bool) :
    Heads (let (rc, poll) := pollitemMod ok server.fd ⟨true, .server⟩ server.poll
      let server := { server with poll }
      if rc < 0 then server.stop rc else server) := by
  obtain ⟨input, hinput⟩ := h.listening
  rw [pollitemMod]
  cases ok with
  | false => exact Heads.stop h _
  | true =>
    have hself : Function.update server.poll server.fd (some ⟨true, .server⟩) server.fd =
        some ⟨true, .server⟩ := Function.update_self _ _ _
    simp only [hinput, Option.isSome_some, Bool.and_self, if_true, lt_irrefl, if_false]
    refine ⟨⟨⟨true, hself⟩, fun hnot => absurd hself hnot, fun idx client hidx => ?_,
      fun fd hfd => ?_⟩, fun _ => iff_of_true hself hfull⟩
    · obtain ⟨hconn, hne, hreg⟩ := h.occupied idx client hidx
      exact ⟨hconn, hne, (Function.update_of_ne hne _ _).trans hreg⟩
    · cases Decidable.em (fd = server.fd) with
      | inl heq => exact .inl heq
      | inr hne =>
        have hsame : Function.update server.poll server.fd (some ⟨true, .server⟩) fd =
            server.poll fd := Function.update_of_ne hne _ _
        exact h.registered fd (hsame ▸ hfd)

/-- **One turn of the loop.** -/
theorem Heads.turn {server : Server σ n} (h : server.Heads) (permgr : PermMgr σ) (mac : Mac σ)
    (shutofftime : Int) (waited : Waited) {env : TurnAnswers n}
    (hfd : ∀ fd ∈ env.accept, server.Closed fd) :
    (server.turn permgr mac shutofftime waited env).Heads := by
  obtain ⟨hsound, htuned, -⟩ := h.sound.waitDispatch h.tuned permgr mac hfd waited
  rw [Server.turn]
  generalize server.waitDispatch permgr mac env waited = r at hsound htuned ⊢
  dsimp only
  split
  · exact Heads.stop hsound _
  · generalize (if shutofftime < 0 then 0 else env.later - shutofftime) = trig
    obtain ⟨hsound', hfd', hstopped', hpoll', hfull', hcount⟩ := hsound.sweep env trig
    generalize r.2.sweep env trig = r' at hsound' hfd' hstopped' hpoll' hfull' hcount ⊢
    split
    · exact Heads.stop hsound' _
    · split
      · rename_i hdeaf
        exact hsound'.arm (hcount.1 hdeaf.2) env.arm
      · rename_i hdeaf
        refine ⟨hsound', fun hrun => ⟨fun harmed hfull => ?_, fun hfree => ?_⟩⟩
        · refine htuned (hstopped'.symm.trans hrun) (hfull' hfull) ?_
          rw [Armed, hfd', hpoll'] at harmed
          exact harmed
        · by_contra harmed
          exact hdeaf ⟨hsound'.deaf harmed, hcount.2 hfree⟩

/-! ## Runs -/

/-- A state at a loop head of `sec_lsm_manager_server_serve`, on a server that was created. An
event is one of a descriptor that is registered, and `accept` gives a descriptor that is not
open. -/
inductive Reached (permgr : PermMgr σ) (mac : Mac σ) (shutofftime : Int) : Server σ n → Prop
  | create (fd : Nat) (system : σ) (log : Bool) :
      Reached permgr mac shutofftime (.create fd system log)
  | turn {server : Server σ n} (waited : Waited) (env : TurnAnswers n) :
      Reached permgr mac shutofftime server → server.stopped = false →
      (∀ fd hup input, waited = .event fd hup input → server.poll fd ≠ none) →
      (∀ fd ∈ env.accept, server.Closed fd) →
      Reached permgr mac shutofftime (server.turn permgr mac shutofftime waited env)

/-- A new server is armed, and all its slots are free. -/
theorem Heads.create {n : ℕ+} (fd : Nat) (system : σ) (log : Bool) :
    (Server.create fd system log : Server σ n).Heads := by
  have hpoll : (Server.create fd system log : Server σ n).poll =
      Function.update (fun _ => none) fd (some ⟨true, .server⟩) := rfl
  have hself : (Server.create fd system log : Server σ n).poll fd = some ⟨true, .server⟩ := by
    rw [hpoll, Function.update_self]
  refine ⟨⟨⟨true, hself⟩, fun hnot => absurd hself hnot, nofun, fun fd' hreg => ?_⟩, fun _ => ?_⟩
  · refine .inl ?_
    by_contra hne
    have hne : fd' ≠ fd := hne
    rw [hpoll, Function.update_of_ne hne] at hreg
    exact hreg rfl
  · exact iff_of_true hself fun hfull => hfull ⟨0, n.pos⟩ rfl

/-- Every reached loop head is as `Heads` says, by induction on the run. -/
theorem Reached.heads {n : ℕ+} {permgr : PermMgr σ} {mac : Mac σ} {shutofftime : Int}
    {server : Server σ n} (h : Reached permgr mac shutofftime server) : server.Heads := by
  induction h with
  | create fd system log => exact .create fd system log
  | turn waited env _ _ _ hfd ih => exact ih.turn permgr mac shutofftime waited hfd

end Server

/-- **The server never goes deaf.** At each loop head where it is not stopped: the listening socket
is armed exactly when a slot is free, each occupied slot has a connected client whose descriptor
is registered with the pollitem of the slot, and no two have the same descriptor. -/
theorem server_listens {n : ℕ+} {permgr : PermMgr σ} {mac : Mac σ} {shutofftime : Int}
    {server : Server σ n} (h : server.Reached permgr mac shutofftime)
    (hrun : server.stopped = false) :
    (server.poll server.fd = some ⟨true, .server⟩ ↔ ∃ idx, (server.clients idx).client = none) ∧
    (∀ idx client, (server.clients idx).client = some client →
      client.connected = true ∧
        server.poll (server.clients idx).fd = some ⟨true, .client idx⟩) ∧
    ∀ idx idx', (server.clients idx).client ≠ none → (server.clients idx').client ≠ none →
      (server.clients idx).fd = (server.clients idx').fd → idx = idx' := by
  have hheads := h.heads
  refine ⟨(hheads.armed hrun).trans ?_, fun idx client hclient => ?_, fun _ _ => ?_⟩
  · simp only [Server.Full, Server.Occupied, not_forall, not_not]
  · obtain ⟨hconn, -, hreg⟩ := hheads.sound.occupied idx client hclient
    exact ⟨hconn, hreg⟩
  · exact hheads.sound.fd_injective

/-- The answers of a turn in which a connection is accepted. -/
def acceptedTurn : TurnAnswers 1 where
  now := 1
  later := 1
  arrived := []
  cuts := []
  answers := fun _ => .plain
  writes := []
  accept := some 4
  create := some (⟨fun _ => 0, fun _ => 0, fun _ => 0⟩, fun _ => 0)
  add := true
  disarm := true
  arm := true
  delete := true
  deletes := fun _ => true

/-- A connection on a server with one slot: it is not armed any more. -/
theorem server_listens_accept :
    let server := (Server.create 3 () false : Server Unit 1).turn .idle .idle (-1)
      (.event 3 false true) acceptedTurn
    server.poll 3 ≠ some ⟨true, .server⟩ := by
  intro server
  have hreached : server.Reached .idle .idle (-1) :=
    .turn (.event 3 false true) acceptedTurn (.create 3 () false) rfl
      (fun fd _ _ h => by cases h; nofun) (fun fd h => by cases h; exact ⟨by decide, nofun⟩)
  have hall := @server_listens Unit 1 .idle .idle (-1) server hreached (by decide +kernel)
  intro harmed
  obtain ⟨idx, hidx⟩ := hall.1.1 harmed
  have hnone : ∀ idx : Fin 1, (server.clients idx).client.isNone = false := by decide +kernel
  have hsome := hnone idx
  rw [hidx] at hsome
  cases hsome

end SecLsmManager
