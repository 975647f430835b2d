import Mathlib.Data.Fintype.Card
import Rpcsx.Lib.Run

/-!
# The mutexes of IPMI

Where the threads are in the calls that take the mutexes of a client, a session, a server and the map
of IPMI objects. Two pairs of calls take the same two mutexes in opposite orders: `TrySendMessage` and
`InvokeAsyncMethod` those of a session and its client, `ipmiCreateSession` and `Connect` those of a
server and a client. A cycle of waiting threads is closed by such a pair and by nothing else.
-/

namespace Rpcsx.Orbis.Ipmi

open Lib Function Relation Option

/-- A client, with the name of the server it is for. Names of servers are unique. -/
structure Client where
  kid : Nat
  name : Nat
  deriving DecidableEq

/-- A session is made for one client, which gets no second one: it goes by its client. -/
inductive Mutex
  | map
  | server (name : Nat)
  | client (c : Client)
  | session (c : Client)
  deriving DecidableEq

inductive Call
  | connect
  | sendConnectResult
  | invokeSync
  | invokeAsync
  | respondSync
  | trySendMessage
  deriving DecidableEq

inductive Place
  | idle
  -- `ipmiMap.get` at the start of a call, then the call's first mutex
  | lookup (call : Call) (c : Client)
  | found (call : Call) (c : Client)
  | start (call : Call) (c : Client)
  | connectServer (c : Client)
  | pushed (c : Client)
  | connected (c : Client)
  | asleep (c : Client)
  | woken (c : Client)
  | eraseServer (c : Client)
  | asyncSession (c : Client)
  | asyncServer (c : Client)
  | syncServer (c : Client)
  | synced (c : Client)
  | queued (c : Client)
  | syncAsleep (c : Client)
  | syncWoken (c : Client)
  | respondServer (c : Client)
  | trySendClient (c : Client)
  | create
  | scan
  | createServer (name : Nat)
  | requests (name : Nat)
  | createClient (c : Client)
  | again (c : Client)
  -- the call is over, its guards go out of scope
  | leave (held : List Mutex)
  deriving DecidableEq

def Call.first (c : Client) : Call → Mutex
  | connect | sendConnectResult | invokeAsync => .client c
  | invokeSync | respondSync | trySendMessage => .session c

namespace Place

def held : Place → List Mutex
  | found _ _ | scan | createServer _ => [.map]
  | connectServer c | connected c | eraseServer c | asyncSession c => [.client c]
  | pushed c => [.server c.name, .client c]
  | asyncServer c => [.session c, .client c]
  | syncServer c | queued c | respondServer c | trySendClient c => [.session c]
  | synced c => [.server c.name, .session c]
  | requests name => [.server name, .map]
  | createClient c => [.server c.name, .map]
  | again c => [.client c, .server c.name, .map]
  | leave held => held
  | _ => []

def wants : Place → Option Mutex
  | lookup _ _ | create => some .map
  | start call c => some (call.first c)
  | connectServer c | eraseServer c | asyncServer c | syncServer c | respondServer c => some (.server c.name)
  | createServer name => some (.server name)
  | woken c | trySendClient c | createClient c => some (.client c)
  | asyncSession c | syncWoken c => some (.session c)
  | _ => none

end Place

/-- What the calls read and write: the clients that have a session and a status, and the connection
requests with the server thread that has received them. -/
structure Data (T : Type) where
  session : Client → Bool
  status : Client → Bool
  request : Client → Option (Option T)

structure State (T : Type) where
  place : T → Place
  data : Data T

inductive Action
  | call (call : Call) (c : Client)
  | create
  -- `sysIpmiServerReceivePacket` gives a connection request to its thread
  | receive (c : Client)
  | go
  -- the next server of the map, the next request of a server
  | server (name : Nat)
  | request (c : Client)
  -- the call returns, with an error or because it has what it waited for
  | leave

def init (T : Type) : State T := ⟨fun _ => .idle, fun _ => false, fun _ => false, fun _ => none⟩

variable {T : Type} [DecidableEq T]

def Call.accepts (d : Data T) (c : Client) : Call → Bool
  | connect => !d.session c
  | invokeSync | respondSync | trySendMessage => d.session c
  | sendConnectResult | invokeAsync => true

open Place in
/-- The next step of thread `t`. What a call does under a mutex happens as it takes it. Condition waits
give their mutex back and may end at any time. -/
def next (d : Data T) (t : T) : Place → Action → Option (Place × Data T)
  | idle, .call call c => some (lookup call c, d)
  | idle, .create => some (create, d)
  | idle, .receive c =>
    if (d.request c).isSome then some (idle, { d with request := update d.request c (some (some t)) }) else none
  | lookup call c, .go => some (found call c, d)
  | found call c, .go => some (if call.accepts d c then start call c else idle, d)
  | start .connect c, .go => some (connectServer c, d)
  | connectServer c, .go =>
    if (d.request c).isSome then some (leave [.server c.name, .client c], d)
    else some (pushed c, { d with request := update d.request c (some none) })
  | pushed c, .go => some (connected c, d)
  | connected c, .go => some (if d.status c then eraseServer c else asleep c, d)
  | asleep c, .go => some (woken c, d)
  | woken c, .go => some (connected c, d)
  | eraseServer c, .go =>
    some (leave [.server c.name, .client c], { d with request := update d.request c none })
  | start .sendConnectResult c, .go =>
    some (leave [.client c], { d with status := update d.status c true })
  | start .invokeAsync c, .go => some (if d.session c then asyncSession c else leave [.client c], d)
  | asyncSession c, .go => some (asyncServer c, d)
  | asyncServer c, .go => some (leave [.server c.name, .session c, .client c], d)
  | start .invokeSync c, .go => some (syncServer c, d)
  | syncServer c, .go => some (synced c, d)
  | synced c, .go => some (queued c, d)
  | queued c, .go => some (syncAsleep c, d)
  | syncAsleep c, .go => some (syncWoken c, d)
  | syncWoken c, .go => some (queued c, d)
  | start .respondSync c, .go => some (respondServer c, d)
  | respondServer c, .go => some (leave [.server c.name, .session c], d)
  | start .trySendMessage c, .go => some (trySendClient c, d)
  | trySendClient c, .go => some (leave [.client c, .session c], d)
  | create, .go => some (scan, d)
  | scan, .server name => some (createServer name, d)
  | createServer name, .go => some (requests name, d)
  | requests name, .request c =>
    if c.name = name ∧ d.request c = some (some t) ∧ !d.session c then some (createClient c, d) else none
  | requests _, .go => some (scan, d)
  | createClient c, .go =>
    if d.session c then some (again c, d)
    else some (leave [.client c, .server c.name, .map], { d with session := update d.session c true })
  | again c, .go => some (requests c.name, d)
  | leave (_ :: held), .go => some (leave held, d)
  | leave [], .go => some (idle, d)
  | p, .leave => if p.wants = none then some (leave p.held, d) else none
  | _, _ => none

variable [Fintype T]

def step (s : State T) (l : T × Action) : Option (State T) :=
  if ∀ m ∈ (s.place l.1).wants, ∀ u, m ∉ (s.place u).held then
    (next s.data l.1 (s.place l.1) l.2).map fun x => ⟨update s.place l.1 x.1, x.2⟩
  else none

def WaitsFor (s : State T) (t u : T) : Prop := ∃ m ∈ (s.place t).wants, m ∈ (s.place u).held

/-- No threads wait in a cycle. -/
def Acyclic (s : State T) : Prop := ∀ t, ¬TransGen (WaitsFor s) t t

/-- The thread does not go for its second mutex while another one holds that one and goes for the first. -/
def Apart (s : State T) (l : T × Action) : Prop :=
  match s.place l.1, l.2 with
  | .start .trySendMessage c, _ => ∀ u, s.place u ≠ .asyncSession c
  | .start .invokeAsync c, _ => s.data.session c → ∀ u, s.place u ≠ .trySendClient c
  | .requests _, .request c => ∀ u, s.place u ≠ .connectServer c ∧ s.place u ≠ .eraseServer c
  | .start .connect c, _ => ∀ u, s.place u ≠ .createClient c
  | .connected c, .go => s.data.status c → ∀ u, s.place u ≠ .createClient c
  | _, _ => True

/-! ## Places -/

namespace Place

variable {p q : Place} {m : Mutex}

/-- The windows in which two threads stop each other. -/
def Opposed : Place → Place → Prop
  | trySendClient c, q => q = asyncSession c
  | asyncSession c, q => q = trySendClient c
  | createClient c, q => q = connectServer c ∨ q = eraseServer c
  | connectServer c, q | eraseServer c, q => q = createClient c
  | _, _ => False

/-- What a thread has found out about the session of its client stays true. -/
def Fits (session : Client → Bool) : Place → Prop
  | asyncSession c | asyncServer c => session c
  | createClient c => session c = false
  | _ => True

theorem Opposed.symm (h : p.Opposed q) : q.Opposed p := by
  cases p <;> simp only [Opposed] at h
  case createClient => obtain rfl | rfl := h <;> rfl
  all_goals subst h; simp [Opposed]

theorem Opposed.waits (h : p.Opposed q) : ∃ m ∈ p.wants, m ∈ q.held := by
  cases p <;> simp only [Opposed] at h
  case createClient => obtain rfl | rfl := h <;> simp [wants, held]
  all_goals subst h; simp [wants, held]

theorem not_opposed_self (p : Place) : ¬p.Opposed p := by
  cases p <;> simp [Opposed]

theorem Fits.mono {f g : Client → Bool} (h : p.Fits f) (hmono : ∀ c, f c → g c) (hmap : .map ∉ p.held) : p.Fits g := by
  cases p <;> simp_all [Fits, held]

/-- A thread that waits is below the one it waits for. -/
def rank : Place → Nat
  | trySendClient _ => 1
  | asyncSession _ => 2
  | connectServer _ | eraseServer _ | asyncServer _ | syncServer _ | respondServer _ | createServer _ => 3
  | createClient _ => 4
  | _ => 0

theorem rank_of_wants (p : Place) : (p.wants = some .map → p.rank = 0) ∧
    (∀ n, p.wants = some (.server n) → p.rank = 3) ∧
    (∀ c, p.wants = some (.client c) → p.rank ≤ 1 ∨ p = createClient c) ∧
    (∀ c, p.wants = some (.session c) → p.rank = 0 ∨ p = asyncSession c) := by
  cases p
  case start call c => cases call <;> simp [wants, Call.first, rank]
  all_goals simp [wants, rank]

theorem rank_of_held (hwaits : p.wants.isSome) : (.map ∈ p.held → 3 ≤ p.rank) ∧ (∀ n, .server n ∈ p.held → p.rank = 4) ∧
    (∀ c, .client c ∈ p.held → p = asyncSession c ∨ p = asyncServer c ∨ p = connectServer c ∨ p = eraseServer c) ∧
    (∀ c, .session c ∈ p.held → p = trySendClient c ∨ p.rank = 3) := by
  cases p <;> simp_all [wants, held, rank]

/-- An edge between waiting threads goes up, unless they are opposed: a thread that makes the session of a
client and one that uses it are not there together. -/
theorem rank_lt {f : Client → Bool} (hp : p.Fits f) (hq : q.Fits f) (hopposed : ¬p.Opposed q)
    (hwants : p.wants = some m) (hheld : m ∈ q.held) (hwaits : q.wants.isSome) : p.rank < q.rank := by
  obtain ⟨wmap, wserver, wclient, wsession⟩ := p.rank_of_wants
  obtain ⟨hmap, hserver, hclient, hsession⟩ := rank_of_held hwaits
  cases m with
  | map =>
    have h0 := wmap hwants
    have h3 := hmap hheld
    omega
  | server n =>
    rw [wserver n hwants, hserver n hheld]
    decide
  | client c =>
    obtain hle | rfl := wclient c hwants <;> obtain rfl | rfl | rfl | rfl := hclient c hheld <;>
      simp_all [rank, Opposed, Fits] <;> omega
  | session c =>
    obtain h0 | rfl := wsession c hwants <;> obtain rfl | h3 := hsession c hheld <;> simp_all [rank, Opposed]

end Place

/-! ## Steps -/

variable {s s' : State T} {d d' : Data T} {t u : T} {p p' : Place} {a : Action} {l : T × Action}

section

omit [Fintype T]

theorem next_spec (h : next d t p a = some (p', d')) :
    (∀ m ∈ p'.held, m ∈ p.held ∨ m ∈ p.wants) ∧ (p.Fits d.session → p'.Fits d'.session) ∧
      (d'.session = d.session ∨ .map ∈ p.held ∧ ∀ c, d.session c → d'.session c) := by
  unfold next at h
  split at h <;> (try split at h) <;> cases h <;>
    simp_all [Place.held, Place.wants, Place.Fits, Call.first, update_apply]

theorem not_opposed_next (h : next d t p a = some (p', d')) : ¬p'.Opposed p := by
  unfold next at h
  split at h <;> (try split at h) <;> cases h <;> simp [Place.Opposed]

theorem apart_iff (h : next s.data t (s.place t) a = some (p', d')) :
    Apart s (t, a) ↔ ∀ u, ¬p'.Opposed (s.place u) := by
  unfold Apart
  generalize s.place t = p at h
  unfold next at h
  split at h <;> (try split at h) <;> cases h
  case h_36 => cases p <;> simp_all [Place.wants, Place.Opposed]
  all_goals simp_all [Place.Opposed]

end

theorem step_cases (h : step s l = some s') : (∀ m ∈ (s.place l.1).wants, ∀ u, m ∉ (s.place u).held) ∧
      ∃ p' d', next s.data l.1 (s.place l.1) l.2 = some (p', d') ∧ s' = ⟨update s.place l.1 p', d'⟩ := by
  rw [step, ite_none_right_eq_some, map_eq_some_iff] at h
  obtain ⟨hfree, x, hnext, rfl⟩ := h
  exact ⟨hfree, x.1, x.2, hnext, rfl⟩

/-- What holds as long as the threads stay apart. -/
structure Inv (s : State T) : Prop where
  fits : ∀ t, (s.place t).Fits s.data.session
  pairs : ∀ t u, t ≠ u → (s.place t).held.Disjoint (s.place u).held ∧ ¬(s.place t).Opposed (s.place u)

theorem Inv.step (hinv : Inv s) (hapart : Apart s l) (h : step s l = some s') : Inv s' := by
  obtain ⟨t, a⟩ := l
  obtain ⟨hfree, p', d', hnext, rfl⟩ := step_cases h
  obtain ⟨hheld, hfits, hsession⟩ := next_spec hnext
  have hpair : ∀ u, u ≠ t → p'.held.Disjoint (s.place u).held ∧ ¬p'.Opposed (s.place u) := by
    refine fun u hu => ⟨fun m hm hmu => ?_, (apart_iff hnext).mp hapart u⟩
    obtain hm | hm := hheld m hm
    · exact (hinv.pairs u t hu).1 hmu hm
    · exact hfree m hm u hmu
  refine ⟨fun u => ?_, fun u v huv => ?_⟩ <;> dsimp only
  · by_cases hu : u = t
    · rw [hu, update_self]
      exact hfits (hinv.fits t)
    rw [update_of_ne hu]
    obtain heq | ⟨hmap, hmono⟩ := hsession
    · exact heq ▸ hinv.fits u
    · exact (hinv.fits u).mono hmono fun hmem => (hinv.pairs u t hu).1 hmem hmap
  by_cases hu : u = t
  · rw [hu, update_self, update_of_ne (hu ▸ huv.symm)]
    exact hpair v (hu ▸ huv.symm)
  by_cases hv : v = t
  · rw [hv, update_self, update_of_ne hu]
    exact ⟨(hpair u hu).1.symm, fun h => (hpair u hu).2 h.symm⟩
  rw [update_of_ne hu, update_of_ne hv]
  exact hinv.pairs u v huv

omit [Fintype T] [DecidableEq T] in
theorem Inv.rank_lt (hinv : Inv s) (h : WaitsFor s t u) (hwaits : (s.place u).wants.isSome) :
    (s.place t).rank < (s.place u).rank := by
  obtain ⟨m, hwants, hheld⟩ := h
  refine Place.rank_lt (hinv.fits t) (hinv.fits u) ?_ hwants hheld hwaits
  by_cases hne : t = u
  · exact hne ▸ Place.not_opposed_self _
  · exact (hinv.pairs t u hne).2

omit [Fintype T] [DecidableEq T] in
theorem Inv.acyclic (hinv : Inv s) : Acyclic s := by
  have hwaits {t u} (h : WaitsFor s t u) : (s.place t).wants.isSome := isSome_of_mem h.choose_spec.1
  have hup {t u} (h : TransGen (WaitsFor s) t u) : (s.place u).wants.isSome → (s.place t).rank < (s.place u).rank := by
    induction h with
    | single h => exact hinv.rank_lt h
    | tail _ h ih => exact fun hu => (ih (hwaits h)).trans (hinv.rank_lt h hu)
  intro t h
  obtain ⟨u, hfirst, -⟩ := TransGen.head'_iff.mp h
  exact lt_irrefl _ (hup h (hwaits hfirst))

/-- As long as all steps are apart no threads wait in a cycle, and a step that is not closes one. -/
theorem acyclic_run {ls : List (T × Action)} (hrun : Run step Apart (init T) ls s) :
    Acyclic s ∧ ∀ l s', step s l = some s' → (Acyclic s' ↔ Apart s l) := by
  have hinv : Inv s := by
    refine hrun.invariant ⟨?_, ?_⟩ fun _ _ _ => Inv.step
    all_goals simp [init, Place.held, Place.Fits, Place.Opposed]
  refine ⟨hinv.acyclic, fun ⟨t, a⟩ s' h => ⟨fun hacyclic => ?_, fun hapart => (hinv.step hapart h).acyclic⟩⟩
  obtain ⟨-, p', d', hnext, rfl⟩ := step_cases h
  refine (apart_iff hnext).mpr fun u hopposed => ?_
  have hut : u ≠ t := by
    rintro rfl
    exact not_opposed_next hnext hopposed
  refine hacyclic t (.tail (.single (b := u) ?_) ?_) <;> unfold WaitsFor <;> simp only [update_self, update_of_ne hut]
  exacts [hopposed.waits, hopposed.symm.waits]

/-- Thread 1 waits for its connection to be accepted, and thread 2 connects with the same client. Thread 0
has received the request and holds the mutexes of the map and the server. -/
def secondConnect (c : Client) : List (Fin 3 × Action) :=
  (1, .call .connect c) :: List.replicate 6 (1, .go) ++ [(0, .receive c), (2, .call .connect c), (2, .go), (2, .go),
    (0, .create), (0, .go), (0, .server c.name), (0, .go), (2, .go)]

instance (s : State T) (l : T × Action) : Decidable (Apart s l) := by
  unfold Apart
  split <;> infer_instance

theorem acyclic_run_second_connect : ∃ s, Run step Apart (init (Fin 3)) (secondConnect ⟨1, 0⟩) s ∧ Acyclic s :=
  ⟨_, .of_eval (some_get (by decide)).symm, (acyclic_run (.of_eval (some_get (by decide)).symm)).1⟩

/-- Thread 0 goes for the client's mutex, which thread 2 has, and thread 2 for the server's. -/
theorem exists_cycle : ∃ s, Run step (fun _ _ => True) (init (Fin 3))
    (secondConnect ⟨1, 0⟩ ++ [(0, .request ⟨1, 0⟩)]) s ∧ ¬Acyclic s := by
  refine ⟨_, .of_eval (some_get (by decide)).symm, fun h => h 0 (.tail (.single (b := 2) ?_) ?_)⟩
  · exact ⟨.client ⟨1, 0⟩, by decide, by decide⟩
  · exact ⟨.server 0, by decide, by decide⟩

end Rpcsx.Orbis.Ipmi
