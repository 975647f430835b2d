import Rpcsx.Lib.OrdMap
import Rpcsx.Rx.AddressRange

/-!
# Stream sockets over P2P ports

`lv2_socket_p2ps` of `lv2_socket_p2ps.cpp`: a byte stream over datagrams. What arrives is kept in a map from
sequence numbers to segments, is acknowledged up to the first gap, and is handed out from the beginning of the
map. Sequence numbers are `u64`.

A packet is what `nt_p2p_port::recv_data` lets through: signature, ports and checksum have been compared, and
the length in the header is that of the payload. The thread that sends packets again and the list of packets it
works on are in `P2psHang`; the polling callbacks and the native socket are left out.
-/

namespace Rpcsx.Cellos

open Lib Rx

inductive P2psStreamStatus
  | closed
  | listening
  | handshaking
  | connected
  deriving DecidableEq, Repr

namespace P2psTcpFlags

def FIN : Nat := 1
def SYN : Nat := 2
def RST : Nat := 4
def PSH : Nat := 8
def ACK : Nat := 16

end P2psTcpFlags

open P2psTcpFlags

/-- `VPORT_P2P_HEADER_SIZE + sizeof(p2ps_encapsulated_tcp)`. -/
def p2psHeaderSize : Nat := 6 + 32

/-- A packet, which fits in a datagram. -/
structure P2psPacket where
  seq : Nat := 0
  ack : Nat := 0
  flags : Nat := 0
  data : List UInt8 := []
  deriving DecidableEq

abbrev Segments := OrdMap Nat (List UInt8)

structure P2psSocket where
  status : P2psStreamStatus := .closed
  dataBegSeq : Nat := 0
  dataAvailable : Nat := 0
  receivedData : Segments := OrdMap.empty
  curSeq : Nat := 0
  deriving DecidableEq

namespace P2psSocket

/-! ## Arrivals -/

/-- The loop of `send_ack` over consecutive segments, for at most `fuel` rounds. -/
def finalAck (segments : Segments) : Nat → Nat → Option Nat
  | 0, _ => none
  | fuel + 1, ack =>
    match segments.find? ack with
    | none => some ack
    | some data => finalAck segments fuel (u64 (ack + data.length))

def sendAck (fuel : Nat) (s : P2psSocket) : Option (P2psSocket × List P2psPacket) := do
  let ack ← finalAck s.receivedData fuel s.dataBegSeq
  some ({ s with dataAvailable := u64Sub ack s.dataBegSeq }, [{ flags := ACK, ack := ack }])

def carriesData (flags : Nat) : Bool :=
  flags == 0 || flags == PSH || flags == ACK || flags == SYN || flags == SYN + ACK

/-- `handle_connected`, with the packets that are sent. -/
def handleConnected (fuel : Nat) (s : P2psSocket) (p : P2psPacket) : Option (P2psSocket × List P2psPacket) :=
  match s.status with
  | .handshaking =>
    if p.flags = SYN + ACK then
      sendAck fuel { s with dataBegSeq := u64 (p.seq + 1), status := .connected }
    else some (s, [])
  | .connected =>
    if carriesData p.flags then
      if p.seq < s.dataBegSeq then
        if p.flags ≠ ACK then sendAck fuel s else some (s, [])
      else sendAck fuel { s with receivedData := (s.receivedData.emplace p.seq p.data).1 }
    else if p.flags = RST ∨ p.flags = FIN then some ({ s with status := .closed }, [])
    else some (s, [])
  | _ => some (s, [])

/-! ## Calls -/

def eraseFirst (segments : Segments) : Segments :=
  match segments.first with
  | none => segments
  | some key => segments.erase key

/-- The loop of `recvfrom`, for at most `fuel` rounds. There is no first segment in an empty map. -/
def give : Nat → Segments → Nat → List UInt8 → Option (Segments × List UInt8)
  | _, segments, 0, buf => some (segments, buf)
  | 0, _, _ + 1, _ => none
  | fuel + 1, segments, left + 1, buf =>
    match segments.entries with
    | [] => none
    | (key, data) :: _ =>
      let count := min (data.length % 0x100000000) (left + 1)
      let segments :=
        if data.length ≠ count then (segments.emplace (u64 (key + count)) (data.drop count)).1
        else segments
      give fuel (eraseFirst segments) (left + 1 - count) (buf ++ data.take count)

inductive RecvResult
  | closed
  | wouldBlock
  | blocks
  | data (bytes : List UInt8)
  deriving DecidableEq

/-- `recvfrom`; `nonblocking` is `so_nbio || (flags & SYS_NET_MSG_DONTWAIT)`. -/
def recvfrom (fuel : Nat) (s : P2psSocket) (nonblocking : Bool) (len : Nat) : Option (P2psSocket × RecvResult) :=
  if s.dataAvailable = 0 then
    if s.status = .closed then some (s, .closed)
    else if nonblocking then some (s, .wouldBlock)
    else some (s, .blocks)
  else do
    let toGive := min s.dataAvailable len
    let (segments, buf) ← give fuel s.receivedData toGive []
    some ({ s with
      receivedData := segments
      dataAvailable := s.dataAvailable - toGive
      dataBegSeq := u64 (s.dataBegSeq + toGive) }, .data buf)

def maxDataLen : Nat := 65535 - p2psHeaderSize

/-- `generate_u2s_packet`, as far as it can fail: the packet has to be smaller than the largest datagram. -/
def generateU2sPacket (header : P2psPacket) (data : List UInt8) : Option P2psPacket :=
  if p2psHeaderSize + data.length < 65535 then some { header with data := data } else none

def chop (curSeq : Nat) (buf : List UInt8) : Option (Nat × List P2psPacket) :=
  if buf.length = 0 then some (curSeq, [])
  else do
    let packet ← generateU2sPacket { seq := curSeq } (buf.take maxDataLen)
    let (seq, packets) ← chop (u64 (curSeq + min buf.length maxDataLen)) (buf.drop maxDataLen)
    some (seq, packet :: packets)
termination_by buf.length
decreasing_by
  have : 0 < maxDataLen := by decide
  simp only [List.length_drop]
  omega

/-- `sendto`: the socket, the packets that are sent and whether the stream is open. There is no result if an
`ensure` fails. -/
def sendto (s : P2psSocket) (buf : List UInt8) : Option (P2psSocket × List P2psPacket × Bool) :=
  if s.status = .closed then some (s, [], false)
  else do
    let (seq, packets) ← chop s.curSeq buf
    some ({ s with curSeq := seq }, packets, true)

/-- `connect`; `seq` is the number that `rand` gives. -/
def connect (seq : Nat) : P2psSocket × List P2psPacket :=
  ({ status := .handshaking, curSeq := u64 (seq + 1) }, [{ flags := SYN, seq := seq }])

/-- The socket that `handle_listening` makes for a SYN packet; `seq` is the number that `rand` gives. -/
def accepted (p : P2psPacket) (seq : Nat) : P2psSocket × List P2psPacket :=
  ({ status := .connected, curSeq := u64 (seq + 1), dataBegSeq := u64 (p.seq + 1) },
    [{ flags := SYN + ACK, seq := seq, ack := u64 (p.seq + 1) }])

end P2psSocket

end Rpcsx.Cellos
