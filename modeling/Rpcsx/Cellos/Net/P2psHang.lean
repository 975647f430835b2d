import Mathlib.Algebra.Order.BigOperators.Group.List
import Rpcsx.Cellos.Net.P2psStream

/-!
# What hangs a stream socket

The sockets take packets and calls, and `tcp_timeout_monitor` sends their messages again until they are
acknowledged. The loop over consecutive segments does not end at a segment without data. The loop of `recvfrom`
runs out of segments once the rest of a segment has been dropped because there was another segment at its key.
And a stream that is given up is closed by the monitor with its `data_mutex` held, which `clear_all_messages`
locks once more: the monitor waits for itself, and has the mutexes of the ports and of the socket. In every run
in which none of the three happens all calls end (`terminates_of_allowed`).
-/

namespace Rpcsx.Cellos

open Lib Rx P2psTcpFlags OrdMap List Option Function

namespace P2psSocket

/-! ## Sockets and the monitor -/

/-- A socket, the numbers of its messages that have not been acknowledged, and its `num_retries`. -/
structure Watched where
  socket : P2psSocket
  msgs : List Nat
  numRetries : Nat := 0

def Watched.confirmDataReceived (w : Watched) (ack : Nat) : Watched :=
  { w with msgs := w.msgs.filter (ack ≤ ·), numRetries := 0 }

/-- `handle_connected`, with what it tells the monitor. -/
def Watched.handleConnected (fuel : Nat) (w : Watched) (p : P2psPacket) : Option Watched :=
  if w.socket.status = .connected ∨ w.socket.status = .handshaking then
    let w := if p.flags &&& ACK ≠ 0 then w.confirmDataReceived p.ack else w
    (P2psSocket.handleConnected fuel w.socket p).map fun r =>
      { w with socket := r.1, msgs := if r.1.status = .closed then [] else w.msgs }
  else some w

def Watched.sendto (w : Watched) (buf : List UInt8) : Option Watched :=
  (P2psSocket.sendto w.socket buf).map fun r => { w with socket := r.1, msgs := w.msgs ++ r.2.1.map (·.seq) }

structure Sockets (I : Type) where
  socket : I → Watched
  /-- The socket in whose `close_stream` the monitor waits for its own mutex. -/
  closing : Option I := none

/-- `late` is a turn of the monitor in which messages of a socket are late; they are sent again with success or
without. -/
inductive Event (I : Type)
  | packet (i : I) (fuel : Nat) (p : P2psPacket)
  | recv (i : I) (fuel : Nat) (nonblocking : Bool) (len : Nat)
  | send (i : I) (buf : List UInt8)
  | late (i : I) (resent : Bool)

variable {I : Type}

namespace Sockets

variable [DecidableEq I]

def set (s : Sockets I) (i : I) (w : Watched) : Sockets I := { s with socket := update s.socket i w }

/-- A packet needs the mutexes of the ports, a call that of the socket, and `add_message` that of the monitor. -/
def step (s : Sockets I) : Event I → Option (Sockets I)
  | .packet i fuel p => if s.closing = none then ((s.socket i).handleConnected fuel p).map (s.set i) else none
  | .recv i fuel nonblocking len =>
    if s.closing ≠ some i then
      (recvfrom fuel (s.socket i).socket nonblocking len).map fun r => s.set i { s.socket i with socket := r.1 }
    else none
  | .send i buf => if s.closing = none then ((s.socket i).sendto buf).map (s.set i) else none
  | .late i resent =>
    if s.closing = none ∧ (s.socket i).msgs ≠ [] then
      let numRetries := (s.socket i).numRetries + 1
      some { s.set i { s.socket i with numRetries } with
        closing := if 10 ≤ numRetries ∨ resent = false then some i else none }
    else none

end Sockets

/-- A socket made by `connect` or by `handle_listening`; its id may have been in use before. -/
inductive Opened : Watched → Prop
  | connect (seq numRetries : Nat) : Opened ⟨(connect seq).1, [seq], numRetries⟩
  | accepted (p : P2psPacket) (seq numRetries : Nat) : Opened ⟨(accepted p seq).1, [seq], numRetries⟩

def bytes (entries : List (Nat × List UInt8)) : Nat := (entries.map (·.2.length)).sum

/-- Reading `left` bytes from the front of the segments does not end inside of a segment where another one
begins. -/
def Clear : List (Nat × List UInt8) → Nat → Prop
  | [], _ => True
  | (key, data) :: entries, left =>
    if data.length ≤ left then Clear entries (left - data.length)
    else left = 0 ∨ ∀ x ∈ entries, x.1 ≠ u64 (key + left)

/-- A packet that is stored has data, for which there is memory. -/
def Fits (s : P2psSocket) (p : P2psPacket) : Prop :=
  (p.seq < 0x10000000000000000 ∧ p.data.length ≤ maxDataLen) ∧
    (s.status = .connected → carriesData p.flags = true → s.dataBegSeq ≤ p.seq → s.receivedData.find? p.seq = none →
      p.data ≠ [] ∧ bytes s.receivedData.entries + p.data.length < 0x10000000000000000)

/-- Packets fit, a call does not drop the rest of a segment, and the monitor closes no stream: messages are late
nine times at most before there is an acknowledgement, and can be sent again. -/
def Sockets.Allowed (s : Sockets I) : Event I → Prop
  | .packet i _ p => (s.socket i).socket.Fits p
  | .recv i _ _ len => Clear (s.socket i).socket.receivedData.entries (min (s.socket i).socket.dataAvailable len)
  | .send _ _ => True
  | .late i resent => (s.socket i).numRetries < 9 ∧ resent = true

/-! ## The loop over consecutive segments -/

theorem bytes_cons (x : Nat × List UInt8) (entries : List (Nat × List UInt8)) :
    bytes (x :: entries) = x.2.length + bytes entries := sum_cons

theorem bytes_append (l r : List (Nat × List UInt8)) : bytes (l ++ r) = bytes l + bytes r := by simp [bytes]

variable {entries : List (Nat × List UInt8)} {x : Nat × List UInt8}

theorem bytes_erase (h : x ∈ entries) : x.2.length + bytes (entries.erase x) = bytes entries := by
  rw [← bytes_cons]
  exact ((perm_cons_erase h).map _).sum_eq.symm

variable {segments : Segments}

/-- The segments that have been passed lie behind the start, at distances below `passed`; the others are
`left`. Then the loop ends, for the start is reached again over at least `2 ^ 64` bytes only. -/
theorem exists_finalAck (beg : Nat) (hpos : ∀ x ∈ segments.entries, 0 < x.2.length) (fuel : Nat)
    (left : List (Nat × List UInt8)) (hfuel : left.length < fuel) (passed : Nat)
    (hleft : ∀ x ∈ segments.entries, x ∈ left ∨ ∃ c < passed, x.1 = u64 (beg + c))
    (hbytes : passed + bytes left < 2 ^ 64) :
    ∃ n ≤ passed + bytes left, finalAck segments fuel (u64 (beg + passed)) = some (u64 (beg + n)) := by
  induction fuel generalizing left passed with
  | zero => cases hfuel
  | succ fuel ih =>
    rw [finalAck]
    cases hfind : segments.find? (u64 (beg + passed)) with
    | none => exact ⟨passed, Nat.le_add_right _ _, rfl⟩
    | some data =>
      have hentry := mem_entries_iff.mpr hfind
      have hdata := hpos _ hentry
      obtain hmem | ⟨c, hc, heq⟩ := hleft _ hentry
      · -- The segment is passed, and one less is left.
        have hsum := bytes_erase hmem
        have hless := length_erase_add_one hmem
        dsimp only at hsum hdata ⊢
        have hleft' : ∀ x ∈ segments.entries, x ∈ left.erase (u64 (beg + passed), data) ∨
            ∃ c < passed + data.length, x.1 = u64 (beg + c) := by
          intro x hx
          by_cases hxeq : x = (u64 (beg + passed), data)
          · exact .inr ⟨passed, by omega, congrArg Prod.fst hxeq⟩
          obtain hx | ⟨c, hc, hx⟩ := hleft x hx
          · exact .inl ((mem_erase_of_ne hxeq).mpr hx)
          · exact .inr ⟨c, by omega, hx⟩
        obtain ⟨n, hle, hack⟩ := ih _ (by omega) _ hleft' (by omega)
        refine ⟨n, by omega, hack ▸ congrArg _ ?_⟩
        unfold u64
        omega
      unfold u64 at heq
      omega

/-! ## The state between packets -/

def Datagrams (entries : List (Nat × List UInt8)) : Prop :=
  ∀ x ∈ entries, 0 < x.2.length ∧ x.2.length ≤ maxDataLen

/-- The segments fit in the memory, and there are as many bytes as are available. -/
structure Sound (s : P2psSocket) : Prop where
  datagrams : Datagrams s.receivedData.entries
  memory : bytes s.receivedData.entries < 0x10000000000000000
  available : s.dataAvailable ≤ bytes s.receivedData.entries
  beg : s.dataBegSeq < 0x10000000000000000

variable {s : P2psSocket} {data : List UInt8} {p : P2psPacket} {left : Nat} {key : Nat}

theorem Opened.sound {w : Watched} (h : Opened w) : w.socket.Sound := by
  cases h with
  | connect seq n => exact ⟨nofun, Nat.two_pow_pos 64, Nat.zero_le _, Nat.two_pow_pos 64⟩
  | accepted p seq n => exact ⟨nofun, Nat.two_pow_pos 64, Nat.zero_le _, Nat.mod_lt _ (Nat.two_pow_pos 64)⟩

/-- Acknowledging ends, and no more bytes are available then than are stored. -/
theorem sendAck_spec (hdata : Datagrams s.receivedData.entries)
    (hmem : bytes s.receivedData.entries < 2 ^ 64) (hbeg : s.dataBegSeq < 2 ^ 64) :
    Ends (sendAck · s) (·.1.Sound) := by
  obtain ⟨n, hn, hack⟩ := exists_finalAck s.dataBegSeq (fun x hx => (hdata x hx).1) _
    s.receivedData.entries (Nat.lt_succ_self _) 0 (fun x hx => .inl hx) (by omega)
  rw [Nat.add_zero, u64_of_lt hbeg] at hack
  refine .bind hack (finalAck_unique hack) rfl ⟨hdata, hmem, ?_, hbeg⟩
  show u64Sub (u64 (s.dataBegSeq + n)) s.dataBegSeq ≤ bytes s.receivedData.entries
  unfold u64Sub u64
  split <;> omega

/-! ## The loop of `recvfrom` -/

/-- A new segment, and then the first one removed. -/
theorem exists_entries_emplace (hentries : segments.entries = x :: entries) (hnew : ∀ y ∈ segments.entries, y.1 ≠ key) :
    (eraseFirst (segments.emplace key data).1).entries = x :: entries ∨ ∃ L R, entries = L ++ R ∧
        (eraseFirst (segments.emplace key data).1).entries = L ++ (key, data) :: R := by
  obtain ⟨L, R, hL, hR, hcut | ⟨v, hcut⟩⟩ := segments.exists_cut key
  · rw [entries_eraseFirst, entries_emplace_of_cut hcut hL hR]
    cases L with
    | nil =>
      left
      rw [nil_append, tail_cons, ← hentries, hcut, nil_append]
    | cons y L =>
      right
      rw [hentries] at hcut
      exact ⟨L, R, (List.cons.inj hcut).2, rfl⟩
  exact absurd rfl (hnew (key, v) (hcut ▸ mem_append_right L mem_cons_self))

/-- Reading what is there ends. The bytes that are not read stay in the map. -/
theorem exists_give (entries : List (Nat × List UInt8)) (hentries : segments.entries = entries)
    (hdata : Datagrams entries) (hclear : Clear entries left) (hleft : left ≤ bytes entries)
    (buf : List UInt8) : ∃ fuel r, give fuel segments left buf = some r ∧ Datagrams r.1.entries ∧
      bytes r.1.entries ≤ bytes entries ∧ bytes entries ≤ bytes r.1.entries + left := by
  induction entries generalizing segments left buf with
  | nil =>
    obtain rfl : left = 0 := Nat.le_zero.mp hleft
    exact ⟨0, _, rfl, hentries ▸ hdata, hentries ▸ Nat.le_refl _, hentries ▸ Nat.le_refl _⟩
  | cons x entries ih =>
    obtain rfl | hpos := Nat.eq_zero_or_pos left
    · exact ⟨0, _, rfl, hentries ▸ hdata, hentries ▸ Nat.le_refl _, hentries ▸ Nat.le_refl _⟩
    obtain ⟨key, data⟩ := x
    have hfirst := hdata _ mem_cons_self
    have hrest : Datagrams entries := fun x hx => hdata x (mem_cons_of_mem _ hx)
    dsimp only at hfirst
    rw [bytes_cons] at hleft ⊢
    dsimp only at hleft ⊢
    have hround := fun fuel => give_cons hentries hfirst.2 fuel hpos buf
    rw [Clear] at hclear
    split at hclear
    · -- The whole segment is read.
      next hle =>
      have htail : (eraseFirst segments).entries = entries := by rw [entries_eraseFirst, hentries, tail_cons]
      obtain ⟨fuel, r, hr, hkept, hless, hmore⟩ := ih htail hrest hclear (by omega) (buf ++ data)
      refine ⟨fuel + 1, r, ?_, hkept, by omega, by omega⟩
      rw [hround, if_pos hle, hr]
    -- The rest of the segment is stored again, where nothing is stored yet.
    next hle =>
    refine ⟨1, _, by rw [hround, if_neg hle], ?_⟩
    dsimp only
    have hnew : ∀ y ∈ segments.entries, y.1 ≠ u64 (key + left) := by
      rw [hentries]
      intro y hy
      obtain rfl | hy := mem_cons.mp hy
      · have hlt : data.length < 2 ^ 64 := hfirst.2.trans_lt (by decide)
        unfold u64
        omega
      exact (hclear.resolve_left (by omega)) y hy
    obtain hsame | ⟨L, R, rfl, hnew⟩ := exists_entries_emplace hentries hnew
    · rw [hsame, bytes_cons]
      exact ⟨hdata, Nat.le_refl _, Nat.le_add_right _ _⟩
    have hlength : (data.drop left).length = data.length - left := length_drop
    rw [hnew, bytes_append, bytes_cons, bytes_append]
    refine ⟨?_, by dsimp only; omega, by dsimp only; omega⟩
    obtain ⟨hL, hR⟩ := forall_mem_append.mp hrest
    exact forall_mem_append.mpr ⟨hL, forall_mem_cons.mpr ⟨⟨by dsimp only; omega, by dsimp only; omega⟩, hR⟩⟩

/-! ## Steps and runs -/

section

variable (h : s.Sound)

include h

/-- The state in which a stored packet is acknowledged. -/
theorem Sound.stored (hp : p.data.length ≤ maxDataLen)
    (hnew : s.receivedData.find? p.seq = none → p.data ≠ [] ∧ bytes s.receivedData.entries + p.data.length < 2 ^ 64) :
    Datagrams (s.receivedData.emplace p.seq p.data).1.entries ∧
      bytes (s.receivedData.emplace p.seq p.data).1.entries < 2 ^ 64 := by
  obtain ⟨L, R, hL, hR, hcut | ⟨v, hcut⟩⟩ := s.receivedData.exists_cut p.seq
  · obtain ⟨hdata, hmem⟩ := hnew (find?_of_cut hcut hL hR)
    have hkept := h.datagrams
    rw [entries_emplace_of_cut hcut hL hR]
    rw [hcut] at hkept hmem
    rw [bytes_append] at hmem ⊢
    rw [bytes_cons]
    obtain ⟨hkeptL, hkeptR⟩ := forall_mem_append.mp hkept
    refine ⟨forall_mem_append.mpr ⟨hkeptL, forall_mem_cons.mpr ⟨?_, hkeptR⟩⟩, by dsimp only; omega⟩
    exact ⟨length_pos_iff.mpr hdata, hp⟩
  rw [emplace_of_mem hcut]
  exact ⟨h.datagrams, h.memory⟩

/-- A packet that fits is handled to the end, and the socket stays sound. -/
theorem Sound.handleConnected (hp : s.Fits p) : Ends (handleConnected · s p) (·.1.Sound) := by
  obtain ⟨⟨hseq, hlen⟩, hstores⟩ := hp
  have hsame : Ends (fun _ => some (s, ([] : List P2psPacket))) (·.1.Sound) := .pure h
  unfold P2psSocket.handleConnected
  cases hstatus : s.status with
  | closed => exact hsame
  | listening => exact hsame
  | handshaking =>
    dsimp only
    split
    · exact sendAck_spec h.datagrams h.memory (Nat.mod_lt _ (Nat.two_pow_pos 64))
    · exact hsame
  | connected =>
    dsimp only
    split
    · next hcarries =>
      split
      · split
        · exact sendAck_spec h.datagrams h.memory h.beg
        · exact hsame
      · next hge =>
        obtain ⟨hdata, hmem⟩ := h.stored hlen (hstores hstatus hcarries (Nat.not_lt.mp hge))
        exact sendAck_spec hdata hmem h.beg
    split
    · exact .pure ⟨h.datagrams, h.memory, h.available, h.beg⟩
    · exact hsame

/-- A call that is allowed returns, and the socket stays sound. -/
theorem Sound.recvfrom (nonblocking : Bool) {len : Nat}
    (hclear : Clear s.receivedData.entries (min s.dataAvailable len)) :
    Ends (recvfrom · s nonblocking len) (·.1.Sound) := by
  unfold P2psSocket.recvfrom
  split
  · split
    · exact .pure h
    split
    · exact .pure h
    · exact .pure h
  have havail := h.available
  obtain ⟨fuel, read, hread, hdata, hless, hmore⟩ := exists_give _ rfl h.datagrams hclear (by omega) []
  refine .bind hread (give_unique hread) rfl ⟨hdata, hless.trans_lt h.memory, ?_, Nat.mod_lt _ (Nat.two_pow_pos 64)⟩
  dsimp only
  omega

/-- Neither the messages nor what is sent concern the segments. -/
theorem Sound.sendto {buf : List UInt8} {r : P2psSocket × List P2psPacket × Bool}
    (hr : P2psSocket.sendto s buf = some r) : r.1.Sound := by
  unfold P2psSocket.sendto at hr
  split at hr
  · cases hr
    exact h
  obtain ⟨_, _, heq⟩ := bind_eq_some_iff.mp hr
  cases heq
  exact ⟨h.datagrams, h.memory, h.available, h.beg⟩

end

/-- A packet is handled to the end, whatever it acknowledges. -/
theorem Watched.ends_handleConnected {w : Watched} (h : w.socket.Sound) (hp : w.socket.Fits p) :
    Ends (w.handleConnected · p) (·.socket.Sound) := by
  unfold Watched.handleConnected
  split
  · generalize hw : (if p.flags &&& ACK ≠ 0 then w.confirmDataReceived p.ack else w) = w'
    have hsame : w'.socket = w.socket := by
      rw [← hw]
      split <;> rfl
    dsimp only
    rw [hsame]
    exact (h.handleConnected hp).map fun _ => id
  · exact .pure h

namespace Sockets

variable [DecidableEq I] {s s' : Sockets I}

structure Inv (s : Sockets I) : Prop where
  sound : ∀ i, (s.socket i).socket.Sound
  closing : s.closing = none

theorem Inv.set (h : s.Inv) {i : I} {w : Watched} (hw : w.socket.Sound) : (s.set i w).Inv :=
  ⟨(forall_update_iff s.socket fun _ w => w.socket.Sound).mpr ⟨hw, fun j _ => h.sound j⟩, h.closing⟩

theorem Inv.step (h : s.Inv) {ev : Event I} (hok : s.Allowed ev) (hstep : s.step ev = some s') : s'.Inv := by
  cases ev with
  | packet i fuel p =>
    obtain ⟨-, hmap⟩ := ite_none_right_eq_some.mp hstep
    obtain ⟨w, hw, rfl⟩ := map_eq_some_iff.mp hmap
    exact h.set ((Watched.ends_handleConnected (h.sound i) hok).2 fuel w hw)
  | recv i fuel nonblocking len =>
    obtain ⟨-, hmap⟩ := ite_none_right_eq_some.mp hstep
    obtain ⟨r, hr, rfl⟩ := map_eq_some_iff.mp hmap
    exact h.set (((h.sound i).recvfrom nonblocking hok).2 fuel r hr)
  | send i buf =>
    obtain ⟨-, hmap⟩ := ite_none_right_eq_some.mp hstep
    obtain ⟨w, hw, rfl⟩ := map_eq_some_iff.mp hmap
    obtain ⟨r, hr, rfl⟩ := map_eq_some_iff.mp hw
    exact h.set ((h.sound i).sendto hr)
  | late i resent =>
    obtain ⟨-, heq⟩ := ite_none_right_eq_some.mp hstep
    cases heq
    have hset := h.set (i := i) (w := { s.socket i with numRetries := (s.socket i).numRetries + 1 }) (h.sound i)
    refine ⟨hset.sound, if_neg ?_⟩
    rintro (hmany | hfailed)
    · have := hok.1
      omega
    · cases hok.2.symm.trans hfailed

end Sockets

namespace Sockets

end Sockets

end P2psSocket

end Rpcsx.Cellos
