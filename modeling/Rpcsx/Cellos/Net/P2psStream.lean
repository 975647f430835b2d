import Rpcsx.Cellos.Net.P2ps
import Rpcsx.Lib.Reassembly
import Rpcsx.Lib.Run

/-!
# Streams between two sockets

Two sockets joined by a network that may lose, duplicate and reorder packets: a packet that has been sent may
arrive at any time and any number of times. What a socket has sent, the buffers passed to its `sendto` and the
bytes returned by its `recvfrom` are kept beside it.

Buffers have to be shorter than `max_data_len`, for a packet of that length is not smaller than the largest
datagram (`chop_eq_none`). Then the bytes that are returned are a prefix of the bytes that are sent
(`stream_of_allowed`).
-/

namespace Rpcsx.Cellos

open Lib Rx P2psTcpFlags Reassembly OrdMap List Option Function

namespace P2psSocket

/-! ## Two sockets and a network -/

inductive Side
  | client
  | server
  deriving DecidableEq

def Side.other : Side → Side
  | client => server
  | server => client

/-- A socket with its history. The server has none until it accepts. -/
structure Endpoint where
  socket : Option P2psSocket := none
  sent : List P2psPacket := []
  passed : List (List UInt8) := []
  returned : List UInt8 := []

abbrev System := Side → Endpoint

def randMax : Nat := 0x7fffffff

def start (seq : Nat) : System
  | .client => { socket := some (connect seq).1, sent := (connect seq).2 }
  | .server => {}

def Endpoint.after (e : Endpoint) (r : P2psSocket × List P2psPacket) : Endpoint :=
  { e with socket := some r.1, sent := e.sent ++ r.2 }

def RecvResult.bytes : RecvResult → List UInt8
  | .data bytes => bytes
  | _ => []

namespace Network

/-- `accept` and `reject` are the two answers of `handle_listening` to a SYN packet; a socket is closed when a
packet has been sent too often. -/
inductive Event
  | accept (p : P2psPacket) (seq : Nat)
  | reject (p : P2psPacket)
  | arrive (side : Side) (fuel : Nat) (p : P2psPacket)
  | send (side : Side) (buf : List UInt8)
  | recv (side : Side) (fuel : Nat) (nonblocking : Bool) (len : Nat)
  | close (side : Side)

/-- The server listens, and the packet asks for a connection. -/
def Asks (s : System) (p : P2psPacket) : Prop :=
  (s .server).socket = none ∧ p ∈ (s .client).sent ∧ p.flags = SYN

instance (s : System) (p : P2psPacket) : Decidable (Asks s p) := inferInstanceAs (Decidable (_ ∧ _ ∧ _))

def step (s : System) : Event → Option System
  | .accept p seq =>
    if Asks s p ∧ seq ≤ randMax then
      some (update s .server ((s .server).after (accepted p seq)))
    else none
  | .reject p =>
    if Asks s p then
      some (update s .server { s .server with sent := (s .server).sent ++ [{ flags := RST }] })
    else none
  | .arrive side fuel p =>
    (s side).socket.bind fun sock =>
      if p ∈ (s side.other).sent then
        (handleConnected fuel sock p).map fun r => update s side ((s side).after r)
      else none
  | .send side buf =>
    (s side).socket.bind fun sock => (sendto sock buf).map fun (sock, packets, isOpen) =>
      update s side
        { (s side).after (sock, packets) with
          passed := if isOpen then (s side).passed ++ [buf] else (s side).passed }
  | .recv side fuel nonblocking len =>
    (s side).socket.bind fun sock => (recvfrom fuel sock nonblocking len).map fun (sock, r) =>
      update s side
        { (s side).after (sock, []) with returned := (s side).returned ++ r.bytes }
  | .close side =>
    (s side).socket.map fun sock =>
      update s side ((s side).after ({ sock with status := .closed }, []))

/-- A buffer that `sendto` can send in one packet, with sequence numbers below `2 ^ 64`. -/
def Sendable (sock : P2psSocket) (buf : List UInt8) : Prop :=
  sock.status ≠ .closed → buf.length < maxDataLen ∧ sock.curSeq + buf.length < 0x10000000000000000

def Allowed (s : System) : Event → Prop
  | .send side buf => ∀ sock, (s side).socket = some sock → Sendable sock buf
  | _ => True

instance (sock : P2psSocket) (buf : List UInt8) : Decidable (Sendable sock buf) :=
  inferInstanceAs (Decidable (_ → _))

instance (s : System) : ∀ ev, Decidable (Allowed s ev)
  | .send side buf => decidable_of_iff (∀ sock ∈ (s side).socket, Sendable sock buf) Iff.rfl
  | .accept _ _ => .isTrue trivial
  | .reject _ => .isTrue trivial
  | .arrive _ _ _ => .isTrue trivial
  | .recv _ _ _ _ => .isTrue trivial
  | .close _ => .isTrue trivial

end Network

/-! ## The sender -/

/-- A packet without data: its number is below those of the stream, and next to the first one in the
handshake. -/
structure Control (base : Nat) (p : P2psPacket) : Prop where
  seq_lt : p.seq < base
  handshake : p.flags = SYN ∨ p.flags = SYN + ACK → p.seq + 1 = base

structure Data (base : Nat) (chunks : List (List UInt8)) (p : P2psPacket) : Prop where
  flags : p.flags = 0
  ack : p.ack = 0
  pos : 0 < p.data.length
  chunk : ∃ L R, chunks = L ++ p.data :: R ∧ p.seq = base + L.flatten.length

variable {base : Nat} {chunks : List (List UInt8)} {p : P2psPacket} {e : Endpoint} {sock : P2psSocket}
  {buf : List UInt8} {curSeq : Nat}

theorem Data.append (h : Data base chunks p) (more : List (List UInt8)) : Data base (chunks ++ more) p := by
  obtain ⟨L, R, rfl, hseq⟩ := h.chunk
  exact ⟨h.flags, h.ack, h.pos, L, R ++ more, append_assoc _ _ _, hseq⟩

/-- The endpoint as the sender of a stream whose first number is `base`. -/
structure Sends (base : Nat) (e : Endpoint) : Prop where
  pos : 0 < base
  room : base + e.passed.flatten.length < 0x10000000000000000
  short : ∀ chunk ∈ e.passed, chunk.length < maxDataLen
  cur : ∀ sock, e.socket = some sock → sock.curSeq = base + e.passed.flatten.length
  packets : ∀ p ∈ e.sent, Control base p ∨ Data base e.passed p

theorem chop_nil (curSeq : Nat) : chop curSeq [] = some (curSeq, []) := by
  rw [chop]
  rfl

/-- A short buffer is sent in one packet. -/
theorem chop_short (hpos : 0 < buf.length) (hbuf : buf.length < maxDataLen) :
    chop curSeq buf = some (u64 (curSeq + buf.length), [{ seq := curSeq, data := buf }]) := by
  have hsize : p2psHeaderSize + buf.length < 65535 := by
    have : p2psHeaderSize + maxDataLen = 65535 := rfl
    omega
  rw [chop, if_neg (by omega), take_of_length_le hbuf.le, generateU2sPacket, if_pos hsize,
    min_eq_left hbuf.le, drop_of_length_le hbuf.le, chop_nil]
  rfl

/-- A buffer that fills a packet cannot be sent. -/
theorem chop_eq_none (hbuf : maxDataLen ≤ buf.length) : chop curSeq buf = none := by
  have hpos : 0 < maxDataLen := by decide
  have hsize : ¬ p2psHeaderSize + (buf.take maxDataLen).length < 65535 := by
    rw [length_take_of_le hbuf]
    decide
  rw [chop, if_neg (by omega), generateU2sPacket, if_neg hsize]
  rfl

/-- Sending control packets. -/
theorem Sends.after (h : Sends base e) (hsock : e.socket = some sock) {r : P2psSocket × List P2psPacket}
    (hcur : r.1.curSeq = sock.curSeq) (hcontrol : ∀ p ∈ r.2, Control base p) : Sends base (e.after r) := by
  refine ⟨h.pos, h.room, h.short, ?_, ?_⟩
  · intro sock' hsock'
    cases hsock'
    exact hcur.trans (h.cur sock hsock)
  exact forall_mem_append.mpr ⟨h.packets, fun p hp => .inl (hcontrol p hp)⟩

/-- What `sendto` does with a buffer that it can send: there is one packet, or none for an empty buffer. -/
theorem sendto_cases (h : Network.Sendable sock buf) : sendto sock buf = some (sock, [], false) ∨
      buf.length < maxDataLen ∧ sock.curSeq + buf.length < 2 ^ 64 ∧
        ∃ packets, (∀ p ∈ packets, 0 < buf.length ∧ p = { seq := sock.curSeq, data := buf }) ∧
          sendto sock buf = some ({ sock with curSeq := sock.curSeq + buf.length }, packets, true) := by
  unfold sendto
  split
  · exact .inl rfl
  · next hopen =>
    obtain ⟨hshort, hroom⟩ := h hopen
    refine .inr ⟨hshort, hroom, ?_⟩
    obtain rfl | hne := eq_or_ne buf []
    · rw [chop_nil]
      exact ⟨[], nofun, rfl⟩
    have hpos := length_pos_iff.mpr hne
    rw [chop_short hpos hshort, u64_of_lt hroom]
    refine ⟨_, ?_, rfl⟩
    intro p hp
    exact ⟨hpos, mem_singleton.mp hp⟩

/-- Sending a buffer: the stream gets longer by it. -/
theorem Sends.send (h : Sends base e) (hsock : e.socket = some sock) (hshort : buf.length < maxDataLen)
    (hroom : sock.curSeq + buf.length < 2 ^ 64) {packets : List P2psPacket}
    (hpackets : ∀ p ∈ packets, 0 < buf.length ∧ p = { seq := sock.curSeq, data := buf }) :
    Sends base { e.after ({ sock with curSeq := sock.curSeq + buf.length }, packets)
      with passed := e.passed ++ [buf] } := by
  have hcur := h.cur sock hsock
  have hlength : (e.passed ++ [buf]).flatten.length = e.passed.flatten.length + buf.length := by
    rw [flatten_append, length_append, flatten_singleton]
  refine ⟨h.pos, ?_, ?_, ?_, ?_⟩
  · show base + (e.passed ++ [buf]).flatten.length < _
    omega
  · exact forall_mem_append.mpr ⟨h.short, forall_mem_singleton.mpr hshort⟩
  · intro sock' hsock'
    cases hsock'
    show sock.curSeq + buf.length = base + (e.passed ++ [buf]).flatten.length
    omega
  refine forall_mem_append.mpr ⟨fun p hp => (h.packets p hp).imp_right (·.append [buf]), fun p hp => ?_⟩
  obtain ⟨hpos, rfl⟩ := hpackets p hp
  exact .inr ⟨rfl, rfl, hpos, e.passed, [], rfl, hcur⟩

/-! ## Loops with a bound -/

section

variable {α β : Type} {f : Nat → Option α} {P : α → Prop} {Q : β → Prop}

/-- With a bound that is large enough there is a result, and every result is as said. -/
def Ends (f : Nat → Option α) (P : α → Prop) : Prop := (∃ fuel, (f fuel).isSome) ∧ ∀ fuel r, f fuel = some r → P r

theorem Ends.pure {r : α} (h : P r) : Ends (fun _ => some r) P :=
  ⟨⟨0, rfl⟩, fun _ _ heq => some.inj heq ▸ h⟩

theorem Ends.map {g : α → β} (h : Ends f P) (hg : ∀ r, P r → Q (g r)) : Ends (fun fuel => (f fuel).map g) Q := by
  refine ⟨h.1.imp fun fuel hsome => by rwa [isSome_map], fun fuel q hq => ?_⟩
  obtain ⟨r, hr, rfl⟩ := map_eq_some_iff.mp hq
  exact hg r (h.2 fuel r hr)

/-- What follows a loop whose result does not depend on the bound. -/
theorem Ends.bind {g : α → Option β} {fuel : Nat} {r : α} {q : β} (hr : f fuel = some r)
    (hunique : ∀ {fuel' r'}, f fuel' = some r' → r = r') (hg : g r = some q) (hq : Q q) :
    Ends (fun fuel => (f fuel).bind g) Q := by
  refine ⟨⟨fuel, by simp [hr, hg]⟩, fun fuel' q' hq' => ?_⟩
  obtain ⟨r', hr', heq⟩ := bind_eq_some_iff.mp hq'
  obtain rfl := hunique hr'
  exact some.inj (hg.symm.trans heq) ▸ hq

end

/-! ## Acknowledgements -/

variable {hi lo : Nat} {segments : Segments}

/-- The walk over segments that lie behind each other; those before `lo` have been passed. -/
theorem finalAck_of_laid (passed es : List (Nat × List UInt8)) (hentries : segments.entries = passed ++ es)
    (hpassed : KeysLt passed lo) (hlaid : Laid hi lo es) (hhi : hi < 2 ^ 64) :
    finalAck segments (es.length + 1) lo = some (lo + consecutive lo es) := by
  induction es generalizing passed lo with
  | nil =>
    have hfind : segments.find? lo = none := find?_of_cut hentries hpassed (by rintro x ⟨⟩)
    rw [finalAck, hfind]
    rfl
  | cons x es ih =>
    obtain ⟨hle, hpos, hbehind⟩ := hlaid
    unfold consecutive
    split
    · next heq =>
      subst heq
      have hfind : segments.find? x.1 = some x.2 := find?_of_mem hentries
      have hnext : u64 (x.1 + x.2.length) = x.1 + x.2.length := u64_of_lt (hbehind.le.trans_lt hhi)
      have hpassed' : KeysLt (passed ++ [x]) (x.1 + x.2.length) := by
        intro y hy
        obtain hy | hy := mem_append.mp hy
        · have := hpassed y hy
          omega
        obtain rfl := mem_singleton.mp hy
        omega
      rw [length_cons, finalAck, hfind]
      dsimp only
      rw [hnext, ih (passed ++ [x]) (by rw [hentries, append_assoc]; rfl) hpassed' hbehind, add_assoc]
    · next hne =>
      have hfind : segments.find? lo = none := by
        refine find?_of_cut hentries hpassed ?_
        intro y hy
        obtain rfl | hy := mem_cons.mp hy
        · omega
        have := hbehind.le_of_mem hy
        omega
      rw [finalAck, hfind]
      rfl

/-- What acknowledging changes does not depend on the bound for the rounds. -/
theorem finalAck_unique {fuel fuel' ack r r' : Nat} (h : finalAck segments fuel ack = some r)
    (h' : finalAck segments fuel' ack = some r') : r = r' := by
  induction fuel generalizing fuel' ack with
  | zero => cases h
  | succ fuel ih =>
    cases fuel' with
    | zero => cases h'
    | succ fuel' =>
      rw [finalAck] at h h'
      cases hfind : segments.find? ack with
      | none =>
        rw [hfind] at h h'
        exact some.inj (h.symm.trans h')
      | some data =>
        rw [hfind] at h h'
        exact ih h h'

/-! ## Reading -/

theorem entries_eraseFirst (segments : Segments) : (eraseFirst segments).entries = segments.entries.tail := by
  unfold eraseFirst first
  cases hentries : segments.entries with
  | nil => simp [hentries]
  | cons x entries =>
    have hcut : segments.entries = [] ++ (x.1, x.2) :: entries := hentries
    exact entries_erase_of_mem hcut

theorem give_zero (fuel : Nat) (segments : Segments) (buf : List UInt8) :
    give fuel segments 0 buf = some (segments, buf) := by
  cases fuel <;> rfl

/-- A round takes the first segment, or as much of it as is left to read. -/
theorem give_cons {entries : List (Nat × List UInt8)} {data : List UInt8} {key left : Nat}
    (hentries : segments.entries = (key, data) :: entries) (hdata : data.length ≤ maxDataLen)
    (fuel : Nat) (hleft : 0 < left) (buf : List UInt8) :
    give (fuel + 1) segments left buf =
      if data.length ≤ left then give fuel (eraseFirst segments) (left - data.length) (buf ++ data)
      else some (eraseFirst (segments.emplace (u64 (key + left)) (data.drop left)).1, buf ++ data.take left) := by
  obtain ⟨left, rfl⟩ := Nat.exists_eq_add_one.mpr hleft
  have hmod : data.length % 0x100000000 = data.length := Nat.mod_eq_of_lt (hdata.trans_lt (by decide))
  rw [give, hentries]
  dsimp only
  rw [hmod]
  by_cases hle : data.length ≤ left + 1
  · rw [Nat.min_eq_left hle, if_neg (fun h => h rfl), if_pos hle, take_length]
  · rw [Nat.min_eq_right (by omega), if_pos (by omega), if_neg hle, Nat.sub_self, give_zero]

theorem give_unique {fuel fuel' left : Nat} {r r' : Segments × List UInt8}
    (h : give fuel segments left buf = some r) (h' : give fuel' segments left buf = some r') : r = r' := by
  induction fuel generalizing fuel' segments left buf with
  | zero =>
    cases left with
    | zero =>
      rw [give_zero] at h h'
      exact some.inj (h.symm.trans h')
    | succ left => cases h
  | succ fuel ih =>
    cases left with
    | zero =>
      rw [give_zero] at h h'
      exact some.inj (h.symm.trans h')
    | succ left =>
      cases fuel' with
      | zero => cases h'
      | succ fuel' =>
        rw [give] at h h'
        split at h
        · cases h
        · next hentries =>
          rw [hentries] at h'
          exact ih h h'

theorem append_isPrefix {α : Type} {a b l : List α} (ha : a <+: l) (hb : b <+: l.drop a.length) : a ++ b <+: l := by
  obtain ⟨rest, rfl⟩ := ha
  rw [drop_left] at hb
  exact (prefix_append_right_inj a).mpr hb

/-- Of `avail` bytes from `lo` on `data` are the first `left` ones, and the segments keep the others. -/
structure Gives (base : Nat) (chunks : List (List UInt8)) (lo left avail : Nat) (data : List UInt8)
    (segments : Segments) : Prop where
  length : data.length = left
  isPrefix : data <+: chunks.flatten.drop (lo - base)
  pieces : ∀ x ∈ segments.entries, Piece base chunks (lo + left) x
  rest : consecutive (lo + left) segments.entries = avail - left

theorem Gives.zero (hpieces : ∀ x ∈ segments.entries, Piece base chunks lo x) :
    Gives base chunks lo 0 (consecutive lo segments.entries) [] segments :=
  ⟨rfl, nil_prefix, hpieces, rfl⟩

/-- Reading takes the next bytes of the stream, and leaves the rest of it. -/
theorem give_of_pieces (es : List (Nat × List UInt8)) (hentries : segments.entries = es)
    (hpieces : ∀ x ∈ es, Piece base chunks lo x) (hshort : ∀ chunk ∈ chunks, chunk.length < maxDataLen)
    (hroom : base + chunks.flatten.length < 2 ^ 64) (left : Nat) (hleft : left ≤ consecutive lo es)
    (buf : List UInt8) : ∃ segments' data, (∃ fuel, give fuel segments left buf = some (segments', buf ++ data)) ∧
      Gives base chunks lo left (consecutive lo es) data segments' := by
  induction es generalizing segments lo left buf with
  | nil =>
    obtain rfl : left = 0 := Nat.le_zero.mp hleft
    rw [← hentries] at hpieces ⊢
    exact ⟨segments, [], ⟨0, by rw [give_zero, append_nil]⟩, .zero hpieces⟩
  | cons x es ih =>
    obtain rfl | hpos := Nat.eq_zero_or_pos left
    · rw [← hentries] at hpieces ⊢
      exact ⟨segments, [], ⟨0, by rw [give_zero, append_nil]⟩, .zero hpieces⟩
    obtain ⟨key, data⟩ := x
    have hx := hpieces _ mem_cons_self
    obtain ⟨hbase, hend, hfront⟩ := hx.isPrefix_drop
    obtain ⟨chunk, hchunk, hlength⟩ := hx.length_le
    have hround := fun fuel => give_cons hentries (hlength.trans (hshort chunk hchunk).le) fuel hpos buf
    have hsorted := segments.sorted
    rw [hentries] at hsorted
    have hbehind : ∀ y ∈ es, ∀ lo' ≤ key + data.length, Piece base chunks lo' y := fun y hy _ =>
      hx.advance (hpieces y (mem_cons_of_mem _ hy)) ((pairwise_cons.mp hsorted).1 y hy)
    dsimp only at hbase hend hfront hlength
    obtain rfl : key = lo := by
      by_contra hne
      rw [consecutive, if_neg hne] at hleft
      omega
    rw [consecutive_cons_self] at hleft ⊢
    by_cases hle : data.length ≤ left
    · -- The whole segment is read.
      have htail : (eraseFirst segments).entries = es := by rw [entries_eraseFirst, hentries, tail_cons]
      have hstream : (chunks.flatten.drop (key - base)).drop data.length =
          chunks.flatten.drop (key + data.length - base) := by
        rw [drop_drop]
        congr 1
        omega
      obtain ⟨segments', more, ⟨fuel, hfuel⟩, hgives⟩ :=
        ih htail (fun y hy => hbehind y hy _ (le_refl _)) (left - data.length) (by omega) (buf ++ data)
      refine ⟨segments', data ++ more, ⟨fuel + 1, ?_⟩, ?_⟩
      · rw [hround, if_pos hle, hfuel, append_assoc]
      have hadd : key + data.length + (left - data.length) = key + left := by omega
      refine ⟨?_, append_isPrefix hfront (hstream ▸ hgives.isPrefix), hadd ▸ hgives.pieces, ?_⟩
      · rw [length_append, hgives.length]
        omega
      rw [← hadd, hgives.rest]
      omega
    -- The rest of the segment begins before all others.
    have hkey : u64 (key + left) = key + left := u64_of_lt (by omega)
    have hcut : segments.entries = [(key, data)] ++ es := hentries
    have hbefore : KeysLt [(key, data)] (key + left) := by
      intro y hy
      obtain rfl := mem_singleton.mp hy
      omega
    have hafter : KeysGt es (key + left) := by
      intro y hy
      have := (hbehind y hy _ (le_refl _)).le
      omega
    have hrest : (eraseFirst (segments.emplace (u64 (key + left)) (data.drop left)).1).entries =
        (key + left, data.drop left) :: es := by
      rw [hkey, entries_eraseFirst, entries_emplace_of_cut hcut hbefore hafter]
      rfl
    refine ⟨_, data.take left, ⟨1, by rw [hround, if_neg hle]⟩, ?_⟩
    refine ⟨length_take_of_le (by omega), (List.take_prefix _ _).trans hfront, ?_, ?_⟩
    · rw [hrest]
      intro y hy
      obtain rfl | hy := mem_cons.mp hy
      · exact hx.drop (not_le.mp hle)
      · exact hbehind y hy _ (by omega)
    have hadd : key + left + (data.length - left) = key + data.length := by omega
    rw [hrest, consecutive_cons_self, length_drop, hadd]
    omega

/-! ## The receiver -/

/-- A socket that has been told where the stream begins, and has returned the first bytes of it. -/
structure Receives (base : Nat) (chunks : List (List UInt8)) (returned : List UInt8) (sock : P2psSocket) : Prop where
  status : sock.status = .connected ∨ sock.status = .closed
  beg : sock.dataBegSeq = base + returned.length
  isPrefix : returned <+: chunks.flatten
  pieces : ∀ x ∈ sock.receivedData.entries, Piece base chunks sock.dataBegSeq x
  available : sock.dataAvailable = consecutive sock.dataBegSeq sock.receivedData.entries

structure Idle (e : Endpoint) : Prop where
  socket : ∀ sock, e.socket = some sock → sock.status ≠ .connected ∧ sock.dataBegSeq = 0 ∧
    sock.dataAvailable = 0 ∧ sock.receivedData = OrdMap.empty
  returned : e.returned = []
  acks : ∀ p ∈ e.sent, p.ack = 0

inductive Receiver (base : Nat) (chunks : List (List UInt8)) (e : Endpoint) : Prop
  | idle (h : Idle e)
  | synced (sock : P2psSocket) (hsock : e.socket = some sock) (h : Receives base chunks e.returned sock)
      (hacks : ∀ p ∈ e.sent, p.ack ≤ sock.dataBegSeq + sock.dataAvailable)

section

variable {returned : List UInt8}

theorem Receives.laid (h : Receives base chunks returned sock) :
    Laid (base + chunks.flatten.length) sock.dataBegSeq sock.receivedData.entries := by
  refine laid_of_pieces sock.receivedData.sorted h.pieces ?_
  rw [h.beg]
  exact Nat.add_le_add_left h.isPrefix.length_le base

/-- The stream gets longer. -/
theorem Receives.append (h : Receives base chunks returned sock) (more : List (List UInt8)) :
    Receives base (chunks ++ more) returned sock := by
  refine ⟨h.status, h.beg, ?_, fun x hx => (h.pieces x hx).append more, h.available⟩
  rw [flatten_append]
  exact h.isPrefix.trans (prefix_append _ _)

theorem Receiver.append (h : Receiver base chunks e) (more : List (List UInt8)) : Receiver base (chunks ++ more) e := by
  cases h with
  | idle h => exact .idle h
  | synced sock hsock h hacks => exact .synced sock hsock (h.append more) hacks

section

variable (hsock : e.socket = some sock) (sock' : P2psSocket) (packets : List P2psPacket)
  (hrecv : sock' = { sock with curSeq := sock'.curSeq, status := sock'.status })
  (hstatus : sock'.status = sock.status ∨ sock'.status = .closed)
  (hacks : ∀ p ∈ packets, p.ack = 0) (passed : List (List UInt8))

include hsock hrecv hstatus hacks

/-- Neither the sequence number of the sender nor its packets concern the receiver; a socket may be closed. -/
theorem Idle.after (h : Idle e) : Idle { e.after (sock', packets) with passed := passed } := by
  obtain ⟨hconnected, hidle⟩ := h.socket sock hsock
  refine ⟨?_, h.returned, ?_⟩
  · intro sock'' hsock''
    cases hsock''
    constructor
    · obtain heq | heq := hstatus
      · rwa [heq]
      rw [heq]
      decide
    rw [hrecv]
    exact hidle
  intro p hp
  exact (mem_append.mp hp).elim (h.acks p) (hacks p)

theorem Receiver.after (h : Receiver base chunks e) :
    Receiver base chunks { e.after (sock', packets) with passed := passed } := by
  have hbeg : sock'.dataBegSeq = sock.dataBegSeq := by rw [hrecv]
  have havail : sock'.dataAvailable = sock.dataAvailable := by rw [hrecv]
  have hdata : sock'.receivedData = sock.receivedData := by rw [hrecv]
  cases h with
  | idle h => exact .idle (h.after hsock sock' packets hrecv hstatus hacks passed)
  | synced sock0 hsock0 h hsent =>
    obtain rfl := some.inj (hsock0.symm.trans hsock)
    refine .synced sock' rfl ⟨?_, ?_, h.isPrefix, ?_, ?_⟩ ?_
    · obtain heq | heq := hstatus
      · rw [heq]
        exact h.status
      exact .inr heq
    · rw [hbeg]
      exact h.beg
    · rw [hbeg, hdata]
      exact h.pieces
    · rw [hbeg, havail, hdata]
      exact h.available
    rw [hbeg, havail]
    refine forall_mem_append.mpr ⟨hsent, fun p hp => ?_⟩
    rw [hacks p hp]
    exact Nat.zero_le _

end

/-- The receiver has sent acknowledgements, if anything. -/
structure Handled (base : Nat) (chunks : List (List UInt8)) (e : Endpoint) (curSeq : Nat)
    (r : P2psSocket × List P2psPacket) : Prop where
  receiver : Receiver base chunks (e.after r)
  cur : r.1.curSeq = curSeq
  acks : ∀ p ∈ r.2, p.seq = 0 ∧ p.flags = ACK

/-- Acknowledging in a state that differs from one that receives in its segments and what is available. -/
theorem Receiver.sendAck (hroom : base + chunks.flatten.length < 2 ^ 64)
    (hpieces : ∀ x ∈ sock.receivedData.entries, Piece base chunks sock.dataBegSeq x)
    (hstatus : sock.status = .connected) (hbeg : sock.dataBegSeq = base + e.returned.length)
    (hfront : e.returned <+: chunks.flatten)
    (hsent : ∀ p ∈ e.sent, p.ack ≤ sock.dataBegSeq + consecutive sock.dataBegSeq sock.receivedData.entries) :
    Ends (sendAck · sock) (Handled base chunks e sock.curSeq) := by
  have hlaid := laid_of_pieces sock.receivedData.sorted hpieces
    (by rw [hbeg]; exact Nat.add_le_add_left hfront.length_le base)
  have hack := finalAck_of_laid [] _ rfl (by rintro x ⟨⟩) hlaid hroom
  refine .bind hack (finalAck_unique hack) rfl ⟨.synced _ rfl ⟨.inl hstatus, hbeg, hfront, hpieces, ?_⟩
    (forall_mem_append.mpr ⟨?_, forall_mem_singleton.mpr ?_⟩), rfl, forall_mem_singleton.mpr ⟨rfl, rfl⟩⟩ <;>
    dsimp only <;> rw [u64Sub_of_le (Nat.le_add_right _ _), Nat.add_sub_cancel_left]
  exact hsent

/-- The segments after a packet with a chunk has arrived. -/
theorem pieces_emplace (hp : Data base chunks p)
    (hpieces : ∀ x ∈ segments.entries, Piece base chunks lo x) (hle : lo ≤ p.seq) :
    (∀ x ∈ (segments.emplace p.seq p.data).1.entries, Piece base chunks lo x) ∧
      segments.entries ⊆ (segments.emplace p.seq p.data).1.entries := by
  obtain ⟨L, R, hL, hR, hcut | ⟨v, hcut⟩⟩ := segments.exists_cut p.seq
  · rw [entries_emplace_of_cut hcut hL hR]
    constructor
    · intro x hx
      obtain hx | hx := mem_append.mp hx
      · exact hpieces x (hcut ▸ mem_append_left R hx)
      obtain rfl | hx := mem_cons.mp hx
      · obtain ⟨front, rest, rfl, hseq⟩ := hp.chunk
        rw [hseq] at hle ⊢
        exact .of_chunk hp.pos hle
      exact hpieces x (hcut ▸ mem_append_right L hx)
    rw [hcut]
    exact append_subset.mpr ⟨subset_append_left _ _, List.Subset.trans (subset_cons_self _ _) (subset_append_right _ _)⟩
  rw [emplace_of_mem hcut]
  exact ⟨hpieces, List.Subset.refl _⟩

/-- A packet of the sender is handled, and what is acknowledged has been received. -/
theorem Receiver.arrive (h : Receiver base chunks e) (hroom : base + chunks.flatten.length < 2 ^ 64)
    (hsock : e.socket = some sock) (hp : Control base p ∨ Data base chunks p) :
    Ends (handleConnected · sock p) (Handled base chunks e sock.curSeq) := by
  have hstay (status : P2psStreamStatus) (hstatus : status = sock.status ∨ status = .closed) :
      Ends (fun _ => some ({ sock with status }, [])) (Handled base chunks e sock.curSeq) :=
    .pure ⟨h.after hsock _ [] rfl hstatus nofun e.passed, rfl, by rintro p ⟨⟩⟩
  have hsame := hstay sock.status (.inl rfl)
  unfold handleConnected
  cases hstatus : sock.status with
  | closed => exact hsame
  | listening => exact hsame
  | handshaking =>
    dsimp only
    split
    · -- The handshake says where the stream begins.
      next hflags =>
      cases h with
      | synced sock0 hsock0 h hsent =>
        obtain rfl := some.inj (hsock0.symm.trans hsock)
        obtain hconn | hclosed := h.status
        · cases hstatus.symm.trans hconn
        · cases hstatus.symm.trans hclosed
      | idle h =>
        obtain ⟨-, -, -, hdata⟩ := h.socket sock hsock
        have hseq : p.seq + 1 = base := by
          obtain hp | hp := hp
          · exact hp.handshake (.inr hflags)
          · cases hp.flags.symm.trans hflags
        have hu64 : u64 (p.seq + 1) = base := by rw [hseq]; exact u64_of_lt (by omega)
        refine Receiver.sendAck hroom ?_ rfl ?_ ?_ ?_
        · rw [hdata]
          rintro x ⟨⟩
        · rw [h.returned]
          exact hu64
        · rw [h.returned]
          exact nil_prefix
        intro q hq
        rw [h.acks q hq]
        exact Nat.zero_le _
    exact hsame
  | connected =>
    cases h with
    | idle h => exact absurd hstatus (h.socket sock hsock).1
    | synced sock0 hsock0 h hsent =>
      obtain rfl := some.inj (hsock0.symm.trans hsock)
      dsimp only
      split
      · split
        · split
          · refine Receiver.sendAck hroom h.pieces hstatus h.beg h.isPrefix ?_
            rw [← h.available]
            exact hsent
          exact hsame
        -- Control packets have numbers below the stream.
        next hge =>
        have hbeg := h.beg
        have hdata : Data base chunks p := by
          refine hp.resolve_left ?_
          intro hcontrol
          have := hcontrol.seq_lt
          omega
        obtain ⟨hpieces, hsub⟩ := pieces_emplace hdata h.pieces (not_lt.mp hge)
        refine Receiver.sendAck hroom hpieces rfl h.beg h.isPrefix ?_
        intro q hq
        have hmono := h.laid.consecutive_mono (laid_of_pieces (sorted _) hpieces h.laid.le) hsub
        have hq' := hsent q hq
        rw [h.available] at hq'
        exact hq'.trans (Nat.add_le_add_left hmono _)
      split
      · exact hstay _ (.inr rfl)
      · exact hsame

/-- What `recvfrom` returns continues the bytes returned before. -/
theorem Receiver.recv (h : Receiver base chunks e) (hroom : base + chunks.flatten.length < 2 ^ 64)
    (hshort : ∀ chunk ∈ chunks, chunk.length < maxDataLen) (hsock : e.socket = some sock) (nonblocking : Bool)
    (len : Nat) : Ends (recvfrom · sock nonblocking len) fun r =>
      Receiver base chunks { e.after (r.1, []) with returned := e.returned ++ r.2.bytes } ∧ r.1.curSeq = sock.curSeq := by
  unfold recvfrom
  split
  · have hstay (r : RecvResult) (hr : r.bytes = []) : Ends (fun _ => some (sock, r)) fun r =>
        Receiver base chunks { e.after (r.1, []) with returned := e.returned ++ r.2.bytes } ∧
          r.1.curSeq = sock.curSeq := by
      refine .pure ⟨?_, rfl⟩
      rw [hr, append_nil]
      exact h.after hsock sock [] rfl (.inl rfl) nofun e.passed
    split
    · exact hstay _ rfl
    split
    · exact hstay _ rfl
    · exact hstay _ rfl
  · next havail =>
    cases h with
    | idle h => exact absurd (h.socket sock hsock).2.2.1 havail
    | synced sock0 hsock0 h hsent =>
      obtain rfl := some.inj (hsock0.symm.trans hsock)
      have hav := h.available
      have hlaid := h.laid.add_consecutive_le
      obtain ⟨segments, data, ⟨fuel, hfuel⟩, hgives⟩ := give_of_pieces _ rfl h.pieces hshort hroom
        (min sock0.dataAvailable len) (by omega) []
      rw [nil_append] at hfuel
      have hbegin : u64 (sock0.dataBegSeq + min sock0.dataAvailable len) =
          sock0.dataBegSeq + min sock0.dataAvailable len := u64_of_lt (by omega)
      refine .bind hfuel (give_unique hfuel) rfl ⟨.synced _ rfl ⟨h.status, ?_, ?_, ?_, ?_⟩ ?_, rfl⟩
      · show u64 _ = base + (e.returned ++ data).length
        rw [hbegin, length_append, hgives.length, h.beg, add_assoc]
      · refine append_isPrefix h.isPrefix ?_
        have hdata := hgives.isPrefix
        rwa [h.beg, Nat.add_sub_cancel_left] at hdata
      · rw [hbegin]
        exact hgives.pieces
      · rw [hbegin, hgives.rest, hav]
      intro p hp
      show p.ack ≤ u64 _ + (sock0.dataAvailable - min sock0.dataAvailable len)
      rw [hbegin]
      have := hsent p ((append_nil e.sent) ▸ hp)
      omega

end

/-! ## Runs -/

open Network

/-- Each side sends a stream to the other one. Before the server accepts it has sent refusals only. -/
structure Streams (base : Side → Nat) (s : System) : Prop where
  sends : ∀ side, Sends (base side) (s side)
  receives : ∀ side, Receiver (base side.other) (s side.other).passed (s side)
  unborn : (s .server).socket = none → Idle (s .client) ∧ (s .server).passed = [] ∧
    ∀ p ∈ (s .server).sent, p = { flags := RST }

theorem Side.other_other (side : Side) : side.other.other = side := by cases side <;> rfl

theorem Side.eq_other_of_ne {side side' : Side} (h : side' ≠ side) : side' = side.other := by
  cases side <;> cases side' <;> first | rfl | exact absurd rfl h

theorem Side.other_ne (side : Side) : side.other ≠ side := by cases side <;> nofun

section

variable {base : Side → Nat} {s : System} {side : Side} {sock' : P2psSocket}

section

variable (h : Streams base s) {seq : Nat}

include h

/-- One side changes, and passes more to `sendto`. -/
theorem Streams.update (hsends : Sends (base side) e) (hreceives : Receiver (base side.other) (s side.other).passed e)
    (hpassed : ∃ more, e.passed = (s side).passed ++ more)
    (hunborn : (s .server).socket = none → match (motive := Side → Prop) side with
      | .client => Idle e
      | .server => e.socket = none → e.passed = [] ∧ ∀ p ∈ e.sent, p = { flags := RST })
    (hborn : (s side).socket ≠ none → e.socket ≠ none) :
    Streams base (Function.update s side e) := by
  have hother : Function.update s side e side.other = s side.other := update_of_ne side.other_ne _ _
  refine ⟨?_, ?_, ?_⟩
  · exact (forall_update_iff s fun side => Sends (base side)).mpr ⟨hsends, fun side' _ => h.sends side'⟩
  · intro side'
    obtain rfl | hne := eq_or_ne side' side
    · rwa [update_self, hother]
    obtain rfl := Side.eq_other_of_ne hne
    obtain ⟨more, hmore⟩ := hpassed
    have hrecv := h.receives side.other
    rw [side.other_other] at hrecv ⊢
    rw [update_self, hother, hmore]
    exact hrecv.append more
  · cases side with
    | server =>
      intro hnone
      rw [update_self] at hnone ⊢
      have hnone' : (s .server).socket = none := by
        by_contra hsome
        exact hborn hsome hnone
      rw [show Function.update s .server e .client = s .client from hother]
      exact ⟨(h.unborn hnone').1, hunborn hnone' hnone⟩
    | client =>
      intro hnone
      rw [show Function.update s .client e .server = s .server from hother] at hnone ⊢
      rw [update_self]
      exact ⟨hunborn hnone, (h.unborn hnone).2⟩

omit h in
theorem streams_start (hseq : seq ≤ randMax) : Streams (fun | .client => seq + 1 | .server => 1) (start seq) := by
  have hmax : randMax < 0x7fffffff + 1 := Nat.lt_succ_self _
  have hcur : u64 (seq + 1) = seq + 1 := u64_of_lt (by omega)
  have hidle : Idle (start seq .client) := by
    refine ⟨?_, rfl, forall_mem_singleton.mpr rfl⟩
    intro sock hsock
    cases hsock
    exact ⟨nofun, rfl, rfl, rfl⟩
  refine ⟨?_, ?_, fun _ => ⟨hidle, rfl, nofun⟩⟩
  · rintro (_ | _)
    · refine ⟨Nat.succ_pos seq, ?_, nofun, ?_, ?_⟩
      · show seq + 1 + 0 < 2 ^ 64
        omega
      · intro sock hsock
        cases hsock
        exact hcur
      exact forall_mem_singleton.mpr (.inl ⟨Nat.lt_succ_self seq, fun _ => rfl⟩)
    exact ⟨one_pos, show 1 + 0 < 2 ^ 64 by omega, nofun, nofun, nofun⟩
  rintro (_ | _)
  · exact .idle hidle
  · exact .idle ⟨nofun, rfl, nofun⟩

/-- A packet that asks for a connection tells where the client's stream begins. -/
theorem Streams.seq_of_asks (hasks : Asks s p) : u64 (p.seq + 1) = base .client := by
  obtain ⟨-, hmem, hflags⟩ := hasks
  have hsends := h.sends .client
  have hseq : p.seq + 1 = base .client := by
    obtain hp | hp := hsends.packets p hmem
    · exact hp.handshake (.inl hflags)
    · cases hp.flags.symm.trans hflags
  have hroom := hsends.room
  rw [hseq]
  exact u64_of_lt (by omega)

theorem Streams.accept (hasks : Asks s p) (hseq : seq ≤ randMax) : Streams (Function.update base .server (seq + 1))
      (Function.update s .server ((s .server).after (accepted p seq))) := by
  have hmax : randMax < 0x7fffffff + 1 := Nat.lt_succ_self _
  have hbeg := h.seq_of_asks hasks
  have hcur : u64 (seq + 1) = seq + 1 := u64_of_lt (by omega)
  obtain ⟨hclient, hpassed, hsent⟩ := h.unborn hasks.1
  have hidle : Idle (s .server) := by
    obtain hidle | ⟨sock, hsock, -, -⟩ := h.receives .server
    · exact hidle
    · cases hasks.1.symm.trans hsock
  have hservers : Function.update s .server ((s .server).after (accepted p seq)) .client = s .client :=
    update_of_ne (by decide) _ _
  have hbases : Function.update base .server (seq + 1) .client = base .client := update_of_ne (by decide) _ _
  refine ⟨?_, ?_, ?_⟩
  · rintro (_ | _)
    · rw [hservers, hbases]
      exact h.sends .client
    rw [update_self, update_self]
    refine ⟨Nat.succ_pos seq, ?_, ?_, ?_, ?_⟩
    · show seq + 1 + (s .server).passed.flatten.length < _
      rw [hpassed]
      show seq + 1 + 0 < 2 ^ 64
      omega
    · show ∀ chunk ∈ (s .server).passed, _
      rw [hpassed]
      nofun
    · intro sock hsock
      cases hsock
      show u64 (seq + 1) = seq + 1 + (s .server).passed.flatten.length
      rw [hpassed]
      exact hcur
    refine forall_mem_append.mpr ⟨fun q hq => ?_, forall_mem_singleton.mpr (.inl ⟨Nat.lt_succ_self seq, fun _ => rfl⟩)⟩
    obtain rfl := hsent q hq
    exact .inl ⟨Nat.succ_pos seq, by rintro (h | h) <;> cases h⟩
  · rintro (_ | _)
    · rw [hservers]
      exact .idle hclient
    show Receiver (Function.update base .server (seq + 1) .client) _ _
    rw [hbases, update_self]
    refine .synced _ rfl ⟨.inl rfl, ?_, ?_, nofun, rfl⟩ ?_
    · show u64 (p.seq + 1) = base .client + (s .server).returned.length
      rw [hidle.returned]
      exact hbeg
    · show (s .server).returned <+: _
      rw [hidle.returned]
      exact nil_prefix
    refine forall_mem_append.mpr ⟨fun q hq => ?_, forall_mem_singleton.mpr (le_refl _)⟩
    rw [hidle.acks q hq]
    exact Nat.zero_le _
  intro hnone
  rw [update_self] at hnone
  cases hnone

theorem Streams.reject (hnone : (s .server).socket = none) :
    Streams base (Function.update s .server { s .server with sent := (s .server).sent ++ [{ flags := RST }] }) := by
  have hsends := h.sends .server
  obtain ⟨-, hpassed, hsent⟩ := h.unborn hnone
  refine h.update ⟨hsends.pos, hsends.room, hsends.short, hsends.cur, ?_⟩ ?_ ⟨[], (append_nil _).symm⟩ ?_ id
  · exact forall_mem_append.mpr ⟨hsends.packets,
      forall_mem_singleton.mpr (.inl ⟨hsends.pos, by rintro (h | h) <;> cases h⟩)⟩
  · obtain hidle | ⟨sock, hsock, -, -⟩ := h.receives .server
    · exact .idle ⟨hidle.socket, hidle.returned, forall_mem_append.mpr ⟨hidle.acks, forall_mem_singleton.mpr rfl⟩⟩
    · cases hnone.symm.trans hsock
  exact fun _ _ => ⟨hpassed, forall_mem_append.mpr ⟨hsent, forall_mem_singleton.mpr rfl⟩⟩

section

variable (hsock : (s side).socket = some sock) {packets : List P2psPacket}

include hsock

/-- One side changes its socket. -/
theorem Streams.updateSocket (hsock' : e.socket = some sock') (hsends : Sends (base side) e)
    (hreceives : Receiver (base side.other) (s side.other).passed e)
    (hpassed : ∃ more, e.passed = (s side).passed ++ more)
    (hidle : side = .client → (s .server).socket = none → Idle (s .client) → Idle e) :
    Streams base (Function.update s side e) := by
  refine h.update hsends hreceives hpassed ?_ ?_
  · intro hnone
    cases side with
    | client => exact hidle rfl hnone (h.unborn hnone).1
    | server => cases hnone.symm.trans hsock
  intro _ hnone
  cases hnone.symm.trans hsock'

theorem Streams.close :
    Streams base (Function.update s side ((s side).after ({ sock with status := .closed }, []))) := by
  refine h.updateSocket hsock rfl ((h.sends side).after hsock rfl (by nofun))
    ((h.receives side).after hsock _ [] rfl (.inr rfl) nofun _) ⟨[], (append_nil _).symm⟩ ?_
  rintro rfl _ hidle
  exact hidle.after hsock _ [] rfl (.inr rfl) nofun _

theorem Streams.send (hok : Sendable sock buf)
    {isOpen : Bool} (hsend : sendto sock buf = some (sock', packets, isOpen)) :
    Streams base (Function.update s side { (s side).after (sock', packets) with
        passed := if isOpen then (s side).passed ++ [buf] else (s side).passed }) := by
  obtain hclosed | ⟨hshort, hroom, packets', hpackets, hsent⟩ := sendto_cases hok
  · cases hclosed.symm.trans hsend
    refine h.updateSocket hsock rfl ((h.sends side).after hsock rfl (by nofun))
      ((h.receives side).after hsock _ [] rfl (.inl rfl) nofun _) ⟨[], (append_nil _).symm⟩ ?_
    rintro rfl _ hidle
    exact hidle.after hsock _ [] rfl (.inl rfl) nofun _
  · cases hsent.symm.trans hsend
    have hacks : ∀ p ∈ packets, p.ack = 0 := by
      intro p hp
      rw [(hpackets p hp).2]
    refine h.updateSocket hsock rfl ((h.sends side).send hsock hshort hroom hpackets)
      ((h.receives side).after hsock { sock with curSeq := sock.curSeq + buf.length } packets rfl (.inl rfl) hacks _)
      ⟨[buf], rfl⟩ ?_
    rintro rfl _ hidle
    exact hidle.after hsock { sock with curSeq := sock.curSeq + buf.length } packets rfl (.inl rfl) hacks _

omit hsock in
omit h in
/-- Acknowledgements are control packets. -/
theorem control_of_ack {base : Nat} (hpos : 0 < base)
    (h : ∀ p ∈ packets, p.seq = 0 ∧ p.flags = ACK) : ∀ p ∈ packets, Control base p := by
  intro p hp
  obtain ⟨hseq, hflags⟩ := h p hp
  refine ⟨hseq ▸ hpos, ?_⟩
  rw [hflags]
  rintro (h | h) <;> cases h

theorem Streams.arrive (hp : p ∈ (s side.other).sent)
    {fuel : Nat} {r : P2psSocket × List P2psPacket} (hr : handleConnected fuel sock p = some r) :
    Streams base (Function.update s side ((s side).after r)) := by
  have hother := h.sends side.other
  obtain ⟨hreceives, hcur, hacks⟩ := ((h.receives side).arrive hother.room hsock (hother.packets p hp)).2 fuel r hr
  refine h.updateSocket hsock rfl ((h.sends side).after hsock hcur (control_of_ack (h.sends side).pos hacks)) hreceives
    ⟨[], (append_nil _).symm⟩ ?_
  -- Only refusals can arrive before the server has accepted.
  rintro rfl hnone hidle
  obtain rfl := (h.unborn hnone).2.2 p hp
  have hstatus := (hidle.socket sock hsock).1
  have hsame : r = (sock, []) := by
    unfold handleConnected at hr
    split at hr
    · exact (some.inj hr).symm
    · next hconn => exact absurd hconn hstatus
    · exact (some.inj hr).symm
  rw [hsame]
  exact hidle.after hsock _ [] rfl (.inl rfl) nofun _

theorem Streams.recv {fuel len : Nat}
    {nonblocking : Bool} {r : RecvResult} (hr : recvfrom fuel sock nonblocking len = some (sock', r)) :
    Streams base (Function.update s side
      { (s side).after (sock', []) with returned := (s side).returned ++ r.bytes }) := by
  have hother := h.sends side.other
  obtain ⟨hreceives, hcur⟩ := ((h.receives side).recv hother.room hother.short hsock nonblocking len).2 fuel _ hr
  have hsends := (h.sends side).after hsock (r := (sock', [])) hcur (by nofun)
  refine h.updateSocket hsock rfl ⟨hsends.pos, hsends.room, hsends.short, hsends.cur, hsends.packets⟩ hreceives
    ⟨[], (append_nil _).symm⟩ ?_
  rintro rfl _ hidle
  have havail := (hidle.socket sock hsock).2.2.1
  have hsame : sock' = sock ∧ r.bytes = [] := by
    rw [recvfrom, if_pos havail] at hr
    split at hr
    · cases hr
      exact ⟨rfl, rfl⟩
    split at hr <;>
    · cases hr
      exact ⟨rfl, rfl⟩
  rw [hsame.1, hsame.2, append_nil]
  exact hidle.after hsock _ [] rfl (.inl rfl) nofun _

end

end

/-- One step: the streams go on, and one may begin. -/
theorem Streams.step {s' : System} (h : ∃ base, Streams base s) {ev : Network.Event} (hok : Network.Allowed s ev)
    (hstep : Network.step s ev = some s') : ∃ base, Streams base s' := by
  obtain ⟨base, h⟩ := h
  cases ev with
  | accept p seq =>
    obtain ⟨⟨hasks, hseq⟩, heq⟩ := ite_none_right_eq_some.mp hstep
    cases heq
    exact ⟨_, h.accept hasks hseq⟩
  | reject p =>
    obtain ⟨hasks, heq⟩ := ite_none_right_eq_some.mp hstep
    cases heq
    exact ⟨base, h.reject hasks.1⟩
  | arrive side fuel p =>
    obtain ⟨sock, hsock, heq⟩ := bind_eq_some_iff.mp hstep
    obtain ⟨hp, heq⟩ := ite_none_right_eq_some.mp heq
    obtain ⟨r, hr, rfl⟩ := map_eq_some_iff.mp heq
    exact ⟨base, h.arrive hsock hp hr⟩
  | send side buf =>
    obtain ⟨sock, hsock, heq⟩ := bind_eq_some_iff.mp hstep
    obtain ⟨⟨sock', packets, isOpen⟩, hsend, rfl⟩ := map_eq_some_iff.mp heq
    exact ⟨base, h.send hsock (hok sock hsock) hsend⟩
  | recv side fuel nonblocking len =>
    obtain ⟨sock, hsock, heq⟩ := bind_eq_some_iff.mp hstep
    obtain ⟨⟨sock', r⟩, hr, rfl⟩ := map_eq_some_iff.mp heq
    exact ⟨base, h.recv hsock hr⟩
  | close side =>
    obtain ⟨sock, hsock, rfl⟩ := map_eq_some_iff.mp hstep
    exact ⟨base, h.close hsock⟩

end

/-- What the receiver knows of the stream: the bytes it has returned are a prefix, the available bytes are those
without a gap, and all acknowledged bytes have been returned or are stored. -/
structure Exact (tx rx : Endpoint) : Prop where
  isPrefix : rx.returned <+: tx.passed.flatten
  available : ∀ sock, rx.socket = some sock →
    (∀ i < sock.dataAvailable, Buffered sock.receivedData.entries (sock.dataBegSeq + i)) ∧
      ¬ Buffered sock.receivedData.entries (sock.dataBegSeq + sock.dataAvailable)
  acks : ∀ sock, rx.socket = some sock → ∀ p ∈ rx.sent, ∀ q < p.ack,
    q < sock.dataBegSeq ∨ Buffered sock.receivedData.entries q

/-- No call fails or runs for ever in the next step. -/
structure Live (tx rx : Endpoint) (sock : P2psSocket) : Prop where
  send : ∀ buf, Sendable sock buf → (sendto sock buf).isSome
  arrive : ∀ p ∈ tx.sent, ∃ fuel, (handleConnected fuel sock p).isSome
  recv : ∀ nonblocking len, ∃ fuel, (recvfrom fuel sock nonblocking len).isSome

theorem Receiver.exact {tx rx : Endpoint} (h : Receiver base tx.passed rx) : Exact tx rx := by
  cases h with
  | idle h =>
    refine ⟨?_, ?_, ?_⟩
    · rw [h.returned]
      exact nil_prefix
    · intro sock hsock
      obtain ⟨-, hbeg, havail, hdata⟩ := h.socket sock hsock
      rw [havail, hdata]
      refine ⟨nofun, ?_⟩
      rintro ⟨x, hx, -⟩
      cases hx
    intro sock _ p hp q hq
    rw [h.acks p hp] at hq
    cases hq
  | synced sock hsock h hacks =>
    have hbuffered := h.laid.buffered
    have hgap := h.laid.not_buffered
    rw [← h.available] at hbuffered hgap
    refine ⟨h.isPrefix, ?_, ?_⟩
    · intro sock' hsock'
      obtain rfl := some.inj (hsock.symm.trans hsock')
      exact ⟨hbuffered, hgap⟩
    intro sock' hsock' p hp q hq
    obtain rfl := some.inj (hsock.symm.trans hsock')
    have hle := hacks p hp
    by_cases hlt : q < sock.dataBegSeq
    · exact .inl hlt
    have := hbuffered (q - sock.dataBegSeq) (by omega)
    rw [Nat.add_sub_cancel' (not_lt.mp hlt)] at this
    exact .inr this

/-- In every run in which the buffers are short enough, both streams are exact, and the next call of a socket, or
a packet that arrives, is handled. -/
theorem stream_of_allowed {seq : Nat} (hseq : seq ≤ randMax) {evs : List Network.Event} {s : System}
    (hrun : Run Network.step Network.Allowed (start seq) evs s) (side : Side) :
    Exact (s side.other) (s side) ∧ ∀ sock, (s side).socket = some sock → Live (s side.other) (s side) sock := by
  obtain ⟨base, h⟩ : ∃ base, Streams base s :=
    hrun.invariant (P := fun s => ∃ base, Streams base s) ⟨_, streams_start hseq⟩ fun _ _ _ h => Streams.step h
  have hother := h.sends side.other
  refine ⟨(h.receives side).exact, ?_⟩
  intro sock hsock
  refine ⟨?_, ?_, ?_⟩
  · intro buf hok
    obtain hsend | ⟨-, -, packets, -, hsend⟩ := sendto_cases hok
    · rw [hsend]
      rfl
    rw [hsend]
    rfl
  · intro p hp
    exact ((h.receives side).arrive hother.room hsock (hother.packets p hp)).1
  intro nonblocking len
  exact ((h.receives side).recv hother.room hother.short hsock nonblocking len).1

/-- The handshake, two bytes sent by the client, and one of them returned by the server. -/
def twoBytes : List Network.Event :=
  [.accept { flags := SYN } 7, .arrive .client 1 { flags := SYN + ACK, seq := 7, ack := 1 },
    .send .client [10, 20], .arrive .server 2 { seq := 1, data := [10, 20] }, .recv .server 1 true 1]

theorem stream_of_allowed_twoBytes :
    ∃ s, Run Network.step Network.Allowed (start 0) twoBytes s ∧ (s .server).returned = [10] ∧
      Exact (s .client) (s .server) :=
  (Run.exists_of_eval (by decide +kernel)).imp fun s h => ⟨h.1, h.2, (stream_of_allowed (by decide) h.1 .server).1⟩

/-- The socket of the client fails to send a buffer of `max_data_len` bytes. -/
theorem sendto_fails_on_full_packet :
    ∃ sock, (start 0 .client).socket = some sock ∧ sendto sock (replicate 65497 0) = none := by
  refine ⟨_, rfl, ?_⟩
  have hchop : chop 1 (replicate 65497 0) = none := chop_eq_none (by rw [length_replicate]; decide)
  show ((chop 1 (replicate 65497 0)).bind fun r => some (_, r.2, true)) = none
  rw [hchop]
  rfl

end P2psSocket

end Rpcsx.Cellos
