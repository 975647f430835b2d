import Rpcsx.Lib.Run
import Rpcsx.Lib.Tally

/-!
# Synchronous calls of IPMI

A call puts a packet in the queue of its session's server and sleeps. The thread that receives the packet
answers it through the session, where the caller finds the answer by its thread id, which the server has
remembered for the receiving thread. A receive takes the packet off the queue before it looks at the
buffer: one that fails loses the packet, and its caller sleeps for ever. A caller takes its answer out of
the session before it writes it out, and loses it if that fails.
-/

namespace Rpcsx.Orbis.Ipmi.Sync

open Lib List Option Function

/-- A packet; `number` tells the packets of a server apart. The thread id is 0 if nobody waits for an answer. -/
structure Packet (T : Type) where
  clientTid : Option T
  session : Nat
  size : Nat
  number : Nat
  deriving DecidableEq

/-- `IpmiSession::SyncResponse`, with the packet that is answered and the thread that answers it. -/
structure SyncResponse (T D : Type) where
  callerTid : Option T
  data : D
  packet : Packet T
  issuer : T

/-- Where a thread is: it waits for an answer, is between the critical section of a receive from `server` and
the end of that call, or has received a packet that it has to answer. -/
inductive Place (T : Type)
  | idle
  | waiting (p : Packet T)
  | fetching (server : Nat) (p : Packet T) (bufferSize : Nat)
  | serving (p : Packet T)
  deriving DecidableEq

/-- The objects, the threads, and what has happened: `taken` lists the packets in the order in which they left
the queue, `received` those that a receive has returned. -/
structure State (T D : Type) where
  packets : Nat → List (Packet T) := fun _ => []
  tidToClientTid : Nat → T → Option (Option T) := fun _ _ => none
  syncResponses : Nat → List (SyncResponse T D) := fun _ => []
  place : T → Place T := fun _ => .idle
  notified : T → Bool := fun _ => false
  submitted : Nat → List (Packet T) := fun _ => []
  taken : Nat → List (Packet T × T) := fun _ => []
  received : Nat → List (Packet T × T) := fun _ => []
  returned : List (Packet T × SyncResponse T D) := []

inductive Action (D : Type)
  | invokeSync (session size : Nat)
  | invokeAsync (session size : Nat)
  | receive (server bufferSize : Nat)
  -- `faults`: the memory of the caller cannot be written, or read
  | finish (faults : Bool)
  | respond (data : D)
  | wake (spurious faults : Bool)

variable {T D : Type} [DecidableEq T] (server : Nat → Nat)

namespace State

def submit (s : State T D) (clientTid : Option T) (session size : Nat) : Packet T × State T D :=
  let p := ⟨clientTid, session, size, (s.submitted (server session)).length⟩
  (p, { s with
    packets := update s.packets (server session) (s.packets (server session) ++ [p])
    submitted := update s.submitted (server session) (s.submitted (server session) ++ [p]) })

def goto (s : State T D) (t : T) (place : Place T) : State T D := { s with place := update s.place t place }

/-- What is left of a receive once it has a packet: the first part may fail. -/
def finish (s : State T D) (t : T) (v : Nat) (p : Packet T) (bufferSize : Nat) (faults : Bool) : State T D :=
  if bufferSize < p.size then s.goto t .idle
  else
    let s := { s with tidToClientTid := update s.tidToClientTid v (update (s.tidToClientTid v) t (some p.clientTid)) }
    if faults then s.goto t .idle
    else { s with received := update s.received v (s.received v ++ [(p, t)]) }.goto t
      (if p.clientTid.isSome then .serving p else .idle)

/-- `notify_all` for the callers that wait in a session. -/
def notify (s : State T D) (session : Nat) (t : T) : Bool :=
  match s.place t with
  | .waiting p => s.notified t || p.session = session
  | _ => s.notified t

def step (s : State T D) : T × Action D → Option (State T D)
  | (t, .invokeSync session size) =>
    if s.place t = .idle then
      let (p, s') := s.submit server (some t) session size
      some ({ s' with notified := update s.notified t false }.goto t (.waiting p))
    else none
  | (t, .invokeAsync session size) =>
    if s.place t = .idle then some ((s.submit server none session size).2.goto t .idle) else none
  | (t, .receive v bufferSize) =>
    match s.place t, s.packets v with
    | .idle, p :: rest => some ({ s with
        packets := update s.packets v rest
        taken := update s.taken v (s.taken v ++ [(p, t)]) }.goto t (.fetching v p bufferSize))
    | _, _ => none
  | (t, .finish faults) =>
    match s.place t with
    | .fetching v p bufferSize => some (s.finish t v p bufferSize faults)
    | _ => none
  | (t, .respond data) =>
    match s.place t with
    | .serving p => (s.tidToClientTid (server p.session) t).map fun clientTid =>
      { s with
        syncResponses := update s.syncResponses p.session
          (⟨clientTid, data, p, t⟩ :: s.syncResponses p.session)
        notified := s.notify p.session }.goto t .idle
    | _ => none
  | (t, .wake spurious faults) =>
    match s.place t with
    | .waiting p =>
      if s.notified t = false ∧ spurious = false then none
      else match (s.syncResponses p.session).find? (·.callerTid = some t) with
      | none => some { s with notified := update s.notified t false }
      | some r => some ({ s with
          syncResponses := update s.syncResponses p.session
            ((s.syncResponses p.session).eraseP (·.callerTid = some t))
          returned := if faults then s.returned else s.returned ++ [(p, r)] }.goto t .idle)
    | _ => none

end State

/-- The buffer of a receive takes the packet, and nothing fails once a packet or an answer has been taken. -/
def Takes (s : State T D) : T × Action D → Prop
  | (t, .finish faults) => faults = false ∧ ∀ v p bufferSize, s.place t = .fetching v p bufferSize → p.size ≤ bufferSize
  | (_, .wake _ faults) => faults = false
  | _ => True

def Place.serves (t : T) : Place T → Nat
  | .serving p | .fetching _ p _ => if p.clientTid = some t then 1 else 0
  | _ => 0

def Place.fetches (v : Nat) (p : Packet T) : Place T → Nat
  | .fetching w q _ => if w = v ∧ q = p then 1 else 0
  | _ => 0

def listed (s : State T D) (t : T) (session : Nat) : Nat :=
  (s.packets (server session)).countP (·.clientTid = some t) +
    (s.syncResponses session).countP (·.callerTid = some t)

variable [Fintype T]

/-- Where the call of `t` is: its packet is queued, with a thread that has received it, or answered. -/
def carriers (s : State T D) (t : T) (session : Nat) : Nat :=
  listed server s t session + tally (Place.serves t) s.place

/-- Packets are taken in their order and by one receive each, which returns them once. Every answer is that of
the thread that received the packet to the call that waits for it, and that call has been notified. -/
structure Answered (s : State T D) : Prop where
  order : ∀ v, s.submitted v = (s.taken v).map Prod.fst ++ s.packets v
  once : ∀ v p t, (s.taken v).count (p, t) = (s.received v).count (p, t) + (s.place t).fetches v p
  pending : ∀ t p, s.place t = .waiting p → carriers server s t p.session = 1
  own : ∀ k, ∀ r ∈ s.syncResponses k, ∃ t, r.callerTid = some t ∧ (s.place t = .waiting r.packet ∧ s.notified t = true) ∧
    r.packet.session = k ∧ (r.packet, r.issuer) ∈ s.received (server k)
  returned : ∀ x ∈ s.returned, x.2.packet = x.1 ∧ (x.1, x.2.issuer) ∈ s.received (server x.1.session)

structure Inv (s : State T D) : Prop extends Answered server s where
  queued : ∀ v, ∀ p ∈ s.packets v, server p.session = v ∧ ∀ t, p.clientTid = some t → s.place t = .waiting p
  fetching : ∀ u v p n, s.place u = .fetching v p n → server p.session = v ∧ ∀ t, p.clientTid = some t → s.place t = .waiting p
  serving : ∀ u p, s.place u = .serving p → s.tidToClientTid (server p.session) u = some p.clientTid ∧
    (p, u) ∈ s.received (server p.session) ∧ ∃ t, p.clientTid = some t ∧ s.place t = .waiting p

variable {server} {s s' : State T D} {t u : T} {p : Packet T} {x : Place T}

omit [Fintype T] in
/-- A thread that waits is not the one that moves. -/
theorem stays (hx : ∀ p, s.place u ≠ .waiting p) (h : s.place t = .waiting p) : update s.place u x t = .waiting p := by
  rw [update_of_ne, h]
  rintro rfl
  exact hx p h

omit [Fintype T] in
/-- One packet more that a thread has taken from a server, or received. -/
theorem count_append_at (f : Nat → List (Packet T × T)) (v n : Nat) (p : Packet T) (t : T) {w : Nat} {q : Packet T} :
    (update f v (f v ++ [(p, t)]) w).count (q, u) =
      (f w).count (q, u) + if u = t then (Place.fetching v p n).fetches w q else 0 := by
  rw [update_apply, Place.fetches]
  split
  · next hw =>
    rw [hw, count_append, count_singleton]
    grind
  · grind

section

variable (h : Inv server s)

include h

/-- A thread that does not wait is owed nothing. -/
theorem Inv.listed_eq_zero (ht : ∀ p, s.place t ≠ .waiting p) (k : Nat) : listed server s t k = 0 := by
  rw [listed, countP_eq_zero.mpr, countP_eq_zero.mpr]
  · intro r hr htid
    obtain ⟨u, hu, ⟨hwaits, -⟩, -⟩ := h.own k r hr
    exact ht _ (some.inj (hu.symm.trans (of_decide_eq_true htid)) ▸ hwaits)
  intro p hp htid
  exact ht p ((h.queued _ p hp).2 t (of_decide_eq_true htid))

theorem Inv.tally_eq_zero (ht : ∀ p, s.place t ≠ .waiting p) : tally (Place.serves t) s.place = 0 := by
  refine Lib.tally_eq_zero fun u => ?_
  cases hu : s.place u with
  | serving p =>
    refine if_neg fun htid => ?_
    obtain ⟨-, -, w, hw, hwaits⟩ := h.serving u p hu
    exact ht p (some.inj (hw.symm.trans htid) ▸ hwaits)
  | fetching v p n => exact if_neg fun htid => ht p ((h.fetching u v p n hu).2 t htid)
  | _ => rfl

/-- A thread that does not wait moves on; what is said of those that wait stays true. -/
theorem Inv.move (ht : ∀ p, s.place t ≠ .waiting p) (hplace : s'.place = update s.place t x)
    (horder : ∀ v, s'.submitted v = (s'.taken v).map Prod.fst ++ s'.packets v)
    (honce : ∀ v p u, (s'.taken v).count (p, u) = (s'.received v).count (p, u) + (s'.place u).fetches v p)
    (hlisted : ∀ u p, s.place u = .waiting p → listed server s' u p.session + x.serves u =
      listed server s u p.session + (s.place t).serves u)
    (hnew : ∀ p, x = .waiting p → listed server s' t p.session = 1)
    (hnotified : ∀ u p, s.place u = .waiting p → s.notified u = true → s'.notified u = true)
    (hown : ∀ k, ∀ r ∈ s'.syncResponses k, r ∈ s.syncResponses k ∨ ∃ u, r.callerTid = some u ∧
      (s.place u = .waiting r.packet ∧ s'.notified u = true) ∧ r.packet.session = k ∧
        (r.packet, r.issuer) ∈ s.received (server k))
    (hreceived : ∀ v, s.received v ⊆ s'.received v) (hreturned : s'.returned = s.returned)
    (hqueued : ∀ v, ∀ p ∈ s'.packets v, p ∈ s.packets v ∨
      server p.session = v ∧ ∀ u, p.clientTid = some u → s'.place u = .waiting p)
    (hfetching : ∀ v p n, x = .fetching v p n → server p.session = v ∧ ∀ u, p.clientTid = some u → s.place u = .waiting p)
    (htid : ∀ v u, u ≠ t → s'.tidToClientTid v u = s.tidToClientTid v u)
    (hserving : ∀ p, x = .serving p → s'.tidToClientTid (server p.session) t = some p.clientTid ∧
      (p, t) ∈ s'.received (server p.session) ∧ ∃ u, p.clientTid = some u ∧ s.place u = .waiting p) :
    Inv server s' := by
  have hstays {u p} (hu : s.place u = .waiting p) : s'.place u = .waiting p := hplace ▸ stays ht hu
  refine ⟨⟨horder, honce, fun u p hu => ?_, fun k r hr => ?_, fun y hy => ?_⟩, fun v p hp => ?_, fun u v p n hu => ?_,
    fun u p hu => ?_⟩
  · have hold := tally_eq (Place.serves u) s.place t
    rw [carriers, hplace, tally_update]
    rw [hplace] at hu
    by_cases hut : u = t
    · rw [hut, update_self] at hu
      have hzero := h.tally_eq_zero ht
      have hserves : x.serves t = 0 := by rw [hu]; rfl
      rw [hut] at hold ⊢
      rw [hnew p hu]
      omega
    rw [update_of_ne hut] at hu
    have hone := h.pending u p hu
    have hcount := hlisted u p hu
    rw [carriers] at hone
    omega
  · obtain hold | ⟨u, hcaller, ⟨hwaits, hnote⟩, hk, hmem⟩ := hown k r hr
    · obtain ⟨u, hcaller, ⟨hwaits, hnote⟩, hk, hmem⟩ := h.own k r hold
      exact ⟨u, hcaller, ⟨hstays hwaits, hnotified u _ hwaits hnote⟩, hk, hreceived _ hmem⟩
    · exact ⟨u, hcaller, ⟨hstays hwaits, hnote⟩, hk, hreceived _ hmem⟩
  · rw [hreturned] at hy
    exact (h.returned y hy).imp_right (hreceived _ ·)
  · obtain hold | hnew := hqueued v p hp
    · exact (h.queued v p hold).imp_right fun hwaits u hu => hstays (hwaits u hu)
    · exact hnew
  · rw [hplace] at hu
    by_cases hut : u = t
    · rw [hut, update_self] at hu
      exact (hfetching v p n hu).imp_right fun hwaits w hw => hstays (hwaits w hw)
    rw [update_of_ne hut] at hu
    exact (h.fetching u v p n hu).imp_right fun hwaits w hw => hstays (hwaits w hw)
  rw [hplace] at hu
  by_cases hut : u = t
  · rw [hut, update_self] at hu
    obtain ⟨hmap, hmem, w, hw, hwaits⟩ := hserving p hu
    exact ⟨hut ▸ hmap, hut ▸ hmem, w, hw, hstays hwaits⟩
  rw [update_of_ne hut] at hu
  obtain ⟨hmap, hmem, w, hw, hwaits⟩ := h.serving u p hu
  exact ⟨(htid _ u hut).trans hmap, hreceived _ hmem, w, hw, hstays hwaits⟩

/-- A thread that neither had nor gets a packet from a queue moves on. -/
theorem Inv.once_update (ht : ∀ v p, (s.place t).fetches v p = 0) (hx : ∀ v p, x.fetches v p = 0) (v : Nat)
    (p : Packet T) (u : T) :
    (s.taken v).count (p, u) = (s.received v).count (p, u) + (update s.place t x u).fetches v p := by
  rw [h.once v p u, update_apply]
  split
  · next hut => rw [hut, ht, hx]
  · rfl

theorem Inv.submit {clientTid : Option T} (hidle : s.place t = .idle) (session size : Nat) {notified : T → Bool}
    (hnote : ∀ u, u ≠ t → notified u = s.notified u)
    (hx : x = .idle ∧ clientTid = none ∨ x = .waiting (s.submit server clientTid session size).1 ∧ clientTid = some t) :
    Inv server ({ (s.submit server clientTid session size).2 with notified := notified }.goto t x) := by
  have ht : ∀ p, s.place t ≠ .waiting p := by simp [hidle]
  have hx0 : (∀ u, x.serves u = 0) ∧ ∀ v p, x.fetches v p = 0 := by
    obtain ⟨rfl, -⟩ | ⟨rfl, -⟩ := hx <;> exact ⟨fun _ => rfl, fun _ _ => rfl⟩
  refine h.move ht rfl (fun v => ?_) (h.once_update (by simp [hidle, Place.fetches]) hx0.2) (fun u q hu => ?_) ?_
    (fun u p hu hn => ?_) (fun _ _ => .inl) (fun _ _ => id) rfl (fun v q hq => ?_) ?_ (fun _ _ _ => rfl) ?_
  · simp only [State.submit, State.goto, update_apply]
    split
    · rw [h.order, append_assoc]
      simp_all
    exact h.order v
  · have hnot : clientTid ≠ some u := by
      obtain ⟨-, rfl⟩ | ⟨-, rfl⟩ := hx
      · nofun
      rintro ⟨⟩
      exact ht q hu
    rw [hx0.1, hidle]
    simp only [State.submit, State.goto, listed, update_apply]
    split <;> simp_all [Place.serves]
  · rintro q rfl
    obtain ⟨⟨⟩, -⟩ | ⟨⟨⟩, rfl⟩ := hx
    have hzero := h.listed_eq_zero ht session
    simp only [listed, State.submit, State.goto, update_self, countP_append, countP_singleton, decide_true,
      if_true] at hzero ⊢
    omega
  · exact (hnote u fun hut => ht p (hut ▸ hu)).trans hn
  · simp only [State.submit, State.goto, update_apply] at hq
    split at hq
    · obtain hq | hq := mem_append.mp hq
      · simp_all
      obtain rfl := mem_singleton.mp hq
      refine .inr ⟨by simp_all, fun u hu => ?_⟩
      obtain ⟨-, rfl⟩ | ⟨rfl, rfl⟩ := hx <;> cases hu
      exact update_self ..
    exact .inl hq
  · rintro v p n rfl
    simp at hx
  rintro p rfl
  simp at hx

theorem Inv.receive {v : Nat} {rest : List (Packet T)} (hidle : s.place t = .idle) (hv : s.packets v = p :: rest)
    (n : Nat) : Inv server ({ s with
      packets := update s.packets v rest
      taken := update s.taken v (s.taken v ++ [(p, t)]) }.goto t (.fetching v p n)) := by
  obtain ⟨hserver, hwaits⟩ := h.queued v p (hv ▸ mem_cons_self)
  refine h.move (by simp [hidle]) rfl (fun w => ?_) (fun w q u => ?_) (fun u q hu => ?_) nofun (fun _ _ _ => id)
    (fun _ _ => .inl) (fun _ _ => id) rfl (fun w q hq => .inl ?_) ?_ (fun _ _ _ => rfl) nofun
  · simp only [State.goto, update_apply]
    split
    · simp_all [h.order]
    · exact h.order w
  · simp only [State.goto]
    rw [count_append_at s.taken v n p t, h.once w q u, update_apply]
    split
    · next hut => rw [hut, hidle, show Place.fetches w q .idle = 0 from rfl, Nat.add_zero]
    · rfl
  · rw [hidle]
    simp only [State.goto, listed, update_apply]
    by_cases hpu : p.clientTid = some u
    · obtain rfl : p = q := Place.waiting.inj ((hwaits u hpu).symm.trans hu)
      simp [hserver, hv, hpu, Place.serves]
      omega
    rw [Place.serves, if_neg hpu]
    split <;> simp_all [Place.serves]
  · simp only [State.goto, update_apply] at hq
    split at hq <;> simp_all
  rintro w q m ⟨⟩
  exact ⟨hserver, hwaits⟩

theorem Inv.finish {v n : Nat} (ht : s.place t = .fetching v p n) (hsize : p.size ≤ n) :
    Inv server (s.finish t v p n false) := by
  obtain ⟨hserver, hwaits⟩ := h.fetching t v p n ht
  simp only [State.finish, if_neg (Nat.not_lt.mpr hsize), Bool.false_eq_true, if_false]
  have hserves (u : T) : Place.serves u (if p.clientTid.isSome then .serving p else .idle) = (s.place t).serves u := by
    rw [ht]
    cases htid : p.clientTid <;> simp [Place.serves, htid]
  refine h.move (by simp [ht]) rfl h.order (fun w q u => ?_) (fun u q _ => by rw [hserves]; rfl) (fun q hq => ?_)
    (fun _ _ _ => id) (fun _ _ => .inl) (fun w => ?_) rfl (fun _ _ => .inl) (fun w q m hq => ?_) (fun w u hut => ?_)
    (fun q hq => ?_)
  · simp only [State.goto]
    rw [count_append_at s.received v n p t, h.once w q u, update_apply]
    split
    · next hut =>
      rw [hut, ht]
      split <;> rfl
    · rfl
  · split at hq <;> cases hq
  · simp only [State.goto, update_apply]
    split
    · simp_all
    · exact fun _ => id
  · split at hq <;> cases hq
  · simp only [State.goto, update_apply]
    split <;> simp_all
  split at hq <;> cases hq
  obtain ⟨u, hu⟩ := isSome_iff_exists.mp ‹_›
  simp only [State.goto, hserver, update_self]
  exact ⟨trivial, mem_append_right _ (mem_singleton_self _), u, hu, hwaits u hu⟩

theorem Inv.respond (ht : s.place t = .serving p) (data : D) : Inv server ({ s with
        syncResponses := update s.syncResponses p.session
          (⟨p.clientTid, data, p, t⟩ :: s.syncResponses p.session)
        notified := s.notify p.session }.goto t .idle) := by
  obtain ⟨-, hmem, u, hu, hwaits⟩ := h.serving t p ht
  refine h.move (by simp [ht]) rfl h.order (h.once_update (by simp [ht, Place.fetches]) fun _ _ => rfl)
    (fun w q hw => ?_) nofun (fun w q hw hn => by simp [State.goto, State.notify, hw, hn]) (fun k r hr => ?_)
    (fun _ _ => id) rfl (fun _ _ => .inl) nofun (fun _ _ _ => rfl) nofun
  · rw [ht]
    simp only [State.goto, listed, update_apply, Place.serves]
    by_cases hpw : p.clientTid = some w
    · obtain rfl := some.inj (hu.symm.trans hpw)
      obtain rfl : p = q := Place.waiting.inj (hwaits.symm.trans hw)
      simp [hpw]
      omega
    split <;> simp_all
  simp only [State.goto, update_apply] at hr
  split at hr
  case isTrue hk =>
    subst hk
    obtain rfl | hr := mem_cons.mp hr
    · exact .inr ⟨u, hu, ⟨hwaits, by simp [State.goto, State.notify, hwaits]⟩, rfl, hmem⟩
    · exact .inl hr
  case isFalse => exact .inl hr

/-- A caller that finds no answer sleeps again. -/
theorem Inv.sleep (ht : s.place t = .waiting p)
    (hfind : (s.syncResponses p.session).find? (·.callerTid = some t) = none) :
    Inv server { s with notified := update s.notified t false } := by
  refine ⟨⟨h.order, h.once, h.pending, fun k r hr => ?_, h.returned⟩, h.queued, h.fetching, h.serving⟩
  obtain ⟨u, hcaller, ⟨hwaits, hnote⟩, rfl, hmem⟩ := h.own k r hr
  refine ⟨u, hcaller, ⟨hwaits, (update_of_ne ?_ _ _).trans hnote⟩, rfl, hmem⟩
  rintro rfl
  obtain rfl := Place.waiting.inj (hwaits.symm.trans ht)
  exact find?_eq_none.mp hfind r hr (decide_eq_true hcaller)

/-- The answer that a caller finds is the only trace of its call. -/
theorem Inv.wake (ht : s.place t = .waiting p) {r : SyncResponse T D}
    (hfind : (s.syncResponses p.session).find? (·.callerTid = some t) = some r) : Inv server ({ s with
      syncResponses := update s.syncResponses p.session ((s.syncResponses p.session).eraseP (·.callerTid = some t))
      returned := s.returned ++ [(p, r)] }.goto t .idle) := by
  obtain ⟨hcaller, a, b, hab, hbefore⟩ := find?_eq_some_iff_append.mp hfind
  have herase : (s.syncResponses p.session).eraseP (·.callerTid = some t) = a ++ b := by
    rw [hab, eraseP_append_right _ (by simpa using hbefore)]
    exact congrArg (a ++ ·) (eraseP_cons_of_pos hcaller)
  rw [herase]
  replace hcaller := of_decide_eq_true hcaller
  obtain ⟨t', ht', ⟨hwaits, -⟩, -, hmem⟩ := h.own _ r (hab ▸ mem_append_right _ mem_cons_self)
  obtain rfl := some.inj (ht'.symm.trans hcaller)
  obtain rfl : r.packet = p := Place.waiting.inj (hwaits.symm.trans ht)
  have hone := h.pending t' _ ht
  rw [carriers, listed, hab, countP_append, countP_cons_of_pos (by simpa using hcaller)] at hone
  have hpackets : ∀ q ∈ s.packets (server r.packet.session), q.clientTid ≠ some t' := by
    simpa using countP_eq_zero.mp (show (s.packets _).countP (·.clientTid = some t') = 0 by omega)
  have hserved : ∀ u, (s.place u).serves t' = 0 := by
    intro u
    have hle := le_tally (Place.serves t') s.place u
    omega
  have hothers : ∀ r' ∈ a ++ b, r'.callerTid ≠ some t' := by
    simpa using countP_eq_zero.mp (show (a ++ b).countP (·.callerTid = some t') = 0 by rw [countP_append]; omega)
  have hstays {u q} (hu : u ≠ t') (hq : s.place u = .waiting q) : update s.place t' .idle u = .waiting q := by
    rw [update_of_ne hu, hq]
  have hmoved {u x} (hu : update s.place t' .idle u = x) (hx : x ≠ .idle) : u ≠ t' ∧ s.place u = x := by
    by_cases hut : u = t'
    · rw [hut, update_self] at hu
      exact absurd hu.symm hx
    exact ⟨hut, (update_of_ne hut _ _).symm.trans hu⟩
  refine ⟨⟨h.order, h.once_update (by simp [ht, Place.fetches]) fun _ _ => rfl, fun u q hu => ?_, fun k r' hr' => ?_,
    fun y hy => ?_⟩, fun v q hq => ?_, fun u v q n hu => ?_, fun u q hu => ?_⟩
  · obtain ⟨hut, hu⟩ := hmoved hu nofun
    have hcall := h.pending u q hu
    have hold := tally_eq (Place.serves u) s.place t'
    have hne : r.callerTid ≠ some u := fun heq => hut (some.inj (heq.symm.trans hcaller))
    simp only [carriers, listed, State.goto, update_apply, tally_update] at hcall ⊢
    rw [ht] at hold
    split
    · simp_all [Place.serves]
    simp only [Place.serves] at hold ⊢
    omega
  · simp only [State.goto, update_apply] at hr'
    split at hr'
    case isTrue hk =>
      have hin : r' ∈ a ++ r :: b := (mem_append.mp hr').elim (mem_append_left _)
        fun hmem => mem_append_right _ (mem_cons_of_mem _ hmem)
      obtain ⟨u, hu, hcall, hrest⟩ := h.own k r' (hk ▸ hab ▸ hin)
      exact ⟨u, hu, hcall.imp_left (hstays fun hut => hothers r' hr' (hut ▸ hu)), hrest⟩
    case isFalse hk =>
      obtain ⟨u, hu, hcall, rfl, hrest⟩ := h.own k r' hr'
      refine ⟨u, hu, hcall.imp_left (hstays ?_), rfl, hrest⟩
      rintro rfl
      exact hk (congrArg _ (Place.waiting.inj (hcall.1.symm.trans ht)))
  · obtain hy | hy := mem_append.mp hy
    · exact h.returned y hy
    obtain rfl := mem_singleton.mp hy
    exact ⟨rfl, hmem⟩
  · obtain ⟨rfl, hcall⟩ := h.queued v q hq
    refine ⟨rfl, fun u hu => hstays ?_ (hcall u hu)⟩
    rintro rfl
    obtain rfl := Place.waiting.inj (ht.symm.trans (hcall _ hu))
    exact hpackets _ hq hu
  · obtain ⟨hut, hplace⟩ := hmoved hu nofun
    refine (h.fetching u v q n hplace).imp_right fun hcall w hw => hstays (fun hwt => ?_) (hcall w hw)
    have hzero := hserved u
    rw [hplace, Place.serves, if_pos (hwt ▸ hw)] at hzero
    cases hzero
  obtain ⟨hut, hplace⟩ := hmoved hu nofun
  obtain ⟨hmap, hmem, w, hw, hcall⟩ := h.serving u q hplace
  refine ⟨hmap, hmem, w, hw, hstays (fun hwt => ?_) hcall⟩
  have hzero := hserved u
  rw [hplace, Place.serves, if_pos (hwt ▸ hw)] at hzero
  cases hzero

theorem Inv.step {l : T × Action D} (htakes : Takes s l) (hstep : s.step server l = some s') : Inv server s' := by
  obtain ⟨t, a⟩ := l
  cases a with
  | invokeSync session size =>
    obtain ⟨hidle, hs⟩ := ite_none_right_eq_some.mp hstep
    exact some.inj hs ▸ h.submit hidle session size (fun u hut => update_of_ne hut _ _) (.inr ⟨rfl, rfl⟩)
  | invokeAsync session size =>
    obtain ⟨hidle, hs⟩ := ite_none_right_eq_some.mp hstep
    exact some.inj hs ▸ h.submit hidle session size (fun _ _ => rfl) (.inl ⟨rfl, rfl⟩)
  | receive v bufferSize =>
    simp only [State.step] at hstep
    split at hstep
    case h_1 p rest hidle hv => exact some.inj hstep ▸ h.receive hidle hv bufferSize
    case h_2 => cases hstep
  | finish faults =>
    obtain ⟨rfl, hsize⟩ := htakes
    simp only [State.step] at hstep
    split at hstep
    case h_1 v p n ht => exact some.inj hstep ▸ h.finish ht (hsize v p n ht)
    case h_2 => cases hstep
  | respond data =>
    simp only [State.step] at hstep
    split at hstep
    case h_1 p ht =>
      rw [(h.serving t p ht).1] at hstep
      exact some.inj hstep ▸ h.respond ht data
    case h_2 => cases hstep
  | wake spurious faults =>
    obtain rfl : faults = false := htakes
    simp only [State.step] at hstep
    split at hstep
    case h_1 p ht =>
      obtain ⟨-, hstep⟩ := ite_none_left_eq_some.mp hstep
      split at hstep
      case h_1 hfind => exact some.inj hstep ▸ h.sleep ht hfind
      case h_2 r hfind => exact some.inj hstep ▸ h.wake ht hfind
    case h_2 => cases hstep

/-- A caller whose answer is there has been notified, and returns an answer when it wakes. -/
theorem Inv.exists_wake (ht : s.place t = .waiting p) {r : SyncResponse T D} (hr : r ∈ s.syncResponses p.session)
    (hcaller : r.callerTid = some t) : s.notified t = true ∧ ∃ s' r', s.step server (t, .wake false false) = some s' ∧
      s'.place t = .idle ∧ s'.returned = s.returned ++ [(p, r')] := by
  obtain ⟨u, hu, ⟨-, hnote⟩, -⟩ := h.own _ r hr
  obtain rfl := some.inj (hu.symm.trans hcaller)
  have hsome : ((s.syncResponses p.session).find? (·.callerTid = some u)).isSome :=
    find?_isSome.mpr ⟨r, hr, decide_eq_true hcaller⟩
  obtain ⟨r', hfind⟩ := isSome_iff_exists.mp hsome
  simp only [State.step, ht, hfind, hnote, Bool.true_eq_false, false_and, if_false]
  exact ⟨trivial, _, r', rfl, update_self .., rfl⟩

end

/-- If every receive takes its packet and no answer is lost on its way out, every call gets its answer. -/
theorem answered_run {ls : List (T × Action D)} (hrun : Run (State.step server) Takes ({} : State T D) ls s) :
    Answered server s ∧ ∀ t p, s.place t = .waiting p → ∀ r ∈ s.syncResponses p.session, r.callerTid = some t →
      s.notified t = true ∧ ∃ s' r', s.step server (t, .wake false false) = some s' ∧
        s'.place t = .idle ∧ s'.returned = s.returned ++ [(p, r')] := by
  have hinv : Inv server s := by
    refine hrun.invariant (P := Inv server) ⟨⟨?_, ?_, ?_, ?_, ?_⟩, ?_, ?_, ?_⟩ fun _ _ _ h => h.step <;>
      simp [Place.fetches]
  exact ⟨hinv.toAnswered, fun _ _ ht _ => hinv.exists_wake ht⟩

/-- Two calls, whose packets two threads take and then return in the other order. -/
def twoCalls : List (Fin 4 × Action Nat) :=
  [(0, .invokeSync 0 64), (1, .invokeSync 0 64), (2, .receive 0 64), (3, .receive 0 64), (3, .finish false),
    (2, .finish false), (3, .respond 30), (2, .respond 20), (0, .wake false false), (1, .wake false false)]

theorem answered_run_two : ∃ s, Run (State.step id) Takes {} twoCalls s ∧
    s.returned.map (fun x => (x.1.number, x.2.data)) = [(0, 20), (1, 30)] ∧ Answered id s :=
  Run.exists_and (.cons trivial rfl (.cons trivial rfl (.cons trivial rfl (.cons trivial rfl
    (.cons ⟨rfl, fun _ _ _ h => by cases h; decide⟩ rfl (.cons ⟨rfl, fun _ _ _ h => by cases h; decide⟩ rfl
    (.cons trivial rfl (.cons trivial rfl (.cons rfl rfl (.cons rfl rfl (.nil _))))))))))) (by decide)
    fun h => (answered_run h).1

def oneCall (bufferSize : Nat) : List (Fin 2 × Action Unit) :=
  [(0, .invokeSync 0 64), (1, .receive 0 bufferSize), (1, .finish false)]

/-- With a buffer that is too small the packet is gone, and the caller waits for nothing. With memory that cannot be
written the answer is gone, and the caller is told of an error. -/
theorem packet_lost : (∃ s, Run (State.step id) (fun _ _ => True) {} (oneCall 0) s ∧ ¬Answered id s) ∧
    ∃ s, Run (State.step id) (fun _ _ => True) {} (oneCall 64 ++ [(1, .respond ()), (0, .wake false true)]) s ∧
      s.place 0 = .idle ∧ s.syncResponses 0 = [] ∧ s.returned = [] :=
  ⟨⟨_, .cons trivial rfl (.cons trivial rfl (.cons trivial rfl (.nil _))),
    fun h => absurd (h.pending 0 _ rfl) (by decide)⟩,
    _, .cons trivial rfl (.cons trivial rfl (.cons trivial rfl (.cons trivial rfl (.cons trivial rfl (.nil _))))),
    rfl, rfl, rfl⟩

end Rpcsx.Orbis.Ipmi.Sync
