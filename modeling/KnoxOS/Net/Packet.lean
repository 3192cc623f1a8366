import Std.Data.TreeMap
import KnoxOS.Lib.Bytes
import KnoxOS.Lib.Map
import KnoxOS.Net.Firewall

/-!
# Incoming packets

`net/packet.rs`: an Ethernet frame is taken apart, an IPv4 packet is shown to the firewall and then
given to the first socket that is bound to its destination port. The congestion control of a
connection is kept as the list of calls made on it. What a packet does beyond the firewall and the
socket table (interface counters, the ARP cache, DHCP and DNS answers) is left out, and the IPv6
stack is a parameter.
-/

namespace KnoxOS.Net

open Std (TreeMap)
open Lib

inductive SocketType where
  | stream
  | dgram
  | raw
deriving DecidableEq, Repr

inductive SocketState where
  | unbound
  | bound
  | listening
  | connecting
  | connected
  | closing
  | closed
deriving DecidableEq, Repr

inductive SocketAddress where
  | inet (ip : Ipv4Address) (port : UInt16)
  | unix (path : String)
deriving DecidableEq, Repr

inductive TcpState where
  | closed
  | listen
  | synSent
  | synReceived
  | established
  | finWait1
  | finWait2
  | closeWait
  | closing
  | lastAck
  | timeWait
deriving DecidableEq, Repr

/-- A call on the `CongestionState` of a connection. -/
inductive CongestionCall where
  | onSend (nbytes : UInt32)
  | onAckedInflight (nbytes : UInt32)
  | onAck (ackedBytes : UInt32) (rttUs : Nat)
deriving DecidableEq, Repr

/-- `TcpConnection`, as far as packets and sends change it. -/
structure TcpConnection where
  state : TcpState
  localPort : UInt16
  remoteAddr : Ipv4Address
  remotePort : UInt16
  sndNxt : UInt32
  sndUna : UInt32
  rcvNxt : UInt32
  rcvWnd : UInt16
  sndWnd : UInt32
  cc : List CongestionCall
deriving DecidableEq, Repr

/-- `Socket`, as far as packets change it. -/
structure Socket where
  sockType : SocketType
  state : SocketState
  localAddr : Option SocketAddress
  recvBuf : List UInt8
  tcpConn : Option TcpConnection
  nonblocking : Bool
deriving DecidableEq, Repr

def tcpSyn : UInt16 := 0x002
def tcpRst : UInt16 := 0x004
def tcpAck : UInt16 := 0x010

/-- The fields of a TCP segment that `process_tcp` reads. -/
structure TcpSegment where
  srcPort : UInt16
  dstPort : UInt16
  seq : UInt32
  ack : UInt32
  flags : UInt16
  window : UInt16
  payload : List UInt8
deriving DecidableEq, Repr

/-- The length of a TCP header with its options. -/
def tcpHeaderLen (data : List UInt8) : Nat := (byteAt data 12 >>> 4).toNat * 4

/-- The decoding at the head of `process_tcp`: all behind the header is payload. -/
def TcpSegment.parse (data : List UInt8) : TcpSegment where
  srcPort := be16 data 0
  dstPort := be16 data 2
  seq := be32 data 4
  ack := be32 data 8
  flags := be16 data 12 &&& 0x1FF
  window := be16 data 14
  payload := data.drop (tcpHeaderLen data)

/-- The arguments of a call of `send_tcp_segment`. -/
structure OutSegment where
  dstIp : Ipv4Address
  srcPort : UInt16
  dstPort : UInt16
  seq : UInt32
  ack : UInt32
  flags : UInt16
  window : UInt16
deriving DecidableEq, Repr

namespace TcpConnection

/-- The window of the peer; zero is not taken over. -/
def updateWindow (tcb : TcpConnection) (window : UInt16) : TcpConnection :=
  if window ≠ 0 then { tcb with sndWnd := window.toUInt32 } else tcb

/-- The SYN-ACK branch of `process_tcp`. -/
def establish (tcb : TcpConnection) (seg : TcpSegment) : TcpConnection :=
  let newly := seg.ack - tcb.sndUna
  { { tcb with rcvNxt := seg.seq + 1, sndUna := seg.ack }.updateWindow seg.window with
    cc := tcb.cc ++ [.onAckedInflight newly, .onAck (max newly 1) 1000]
    state := .established }

/-- The ACK branch of `process_tcp`, without the payload. -/
def acknowledge (tcb : TcpConnection) (seg : TcpSegment) : TcpConnection :=
  let newly := seg.ack - tcb.sndUna
  { { tcb with sndUna := seg.ack }.updateWindow seg.window with
    cc := if 0 < newly ∧ newly < 16 * 1024 * 1024 then
        tcb.cc ++ [.onAckedInflight newly, .onAck newly 1000]
      else tcb.cc }

/-- The payload moves `rcv_nxt`. -/
def advance (tcb : TcpConnection) (seg : TcpSegment) : TcpConnection :=
  if seg.payload = [] then tcb
  else { tcb with rcvNxt := seg.seq + UInt32.ofNat seg.payload.length }

end TcpConnection

namespace Socket

/-- The socket of the loops in `process_tcp` and `process_udp`. -/
def boundTo (s : Socket) (sockType : SocketType) (port : UInt16) : Bool :=
  s.sockType = sockType &&
    match s.localAddr with
    | some (.inet _ p) => p == port
    | _ => false

def canRecv (s : Socket) : Bool :=
  match s.sockType with
  | .stream => s.state = .connected || s.state = .closing
  | .dgram | .raw => s.state = .bound || s.state = .connected || s.state = .closing

/-- `Socket::recv` with a buffer of `n` bytes. -/
def recv (s : Socket) (n : Nat) : Except Int (List UInt8) × Socket :=
  if !s.canRecv then (.error (-107), s)
  else if s.recvBuf = [] then (if s.nonblocking then .error (-11) else .ok [], s)
  else (.ok (s.recvBuf.take n), { s with recvBuf := s.recvBuf.drop n })

/-- `nic_send` on a stream socket with `len` bytes; `limit` is from `send_limit`. The errors for a
missing socket, a missing or foreign peer address and a segment that is not sent are left out. -/
def nicSend (s : Socket) (limit len : Nat) : Except Int Nat × Socket :=
  if s.state ≠ .connected then (.error (-107), s)
  else
    match s.tcpConn with
    | none => (.ok len, s)
    | some tcb =>
      if limit = 0 then (.error (-11), s)
      else
        let n := min len limit
        (.ok n, { s with tcpConn := some { tcb with
          sndNxt := tcb.sndNxt + UInt32.ofNat n
          cc := tcb.cc ++ [.onSend (UInt32.ofNat n)] } })

/-- The RST branch. -/
def reset (s : Socket) : Socket :=
  { s with state := .closed, tcpConn := s.tcpConn.map fun tcb => { tcb with state := .closed } }

/-- The ACK branch: the payload is appended whatever its sequence number. -/
def receive (s : Socket) (seg : TcpSegment) : Socket :=
  { s with
    tcpConn := s.tcpConn.map fun tcb => (tcb.acknowledge seg).advance seg
    recvBuf := s.recvBuf ++ seg.payload }

/-- The body of the loop of `process_tcp`, and the segment it answers with. -/
def onSegment (s : Socket) (seg : TcpSegment) : Socket × Option OutSegment :=
  if seg.flags &&& tcpRst ≠ 0 then (s.reset, none)
  else
    match s.tcpConn with
    | some tcb =>
      if s.state = .connecting ∧ seg.flags &&& tcpSyn ≠ 0 ∧ seg.flags &&& tcpAck ≠ 0 then
        let tcb := tcb.establish seg
        ({ s with tcpConn := some tcb, state := .connected },
          some ⟨tcb.remoteAddr, tcb.localPort, tcb.remotePort, tcb.sndNxt, tcb.rcvNxt, tcpAck,
            tcb.rcvWnd⟩)
      else if (s.state = .connected ∨ s.state = .connecting) ∧ seg.flags &&& tcpAck ≠ 0 then
        (s.receive seg, none)
      else (s, none)
    | none =>
      if (s.state = .connected ∨ s.state = .connecting) ∧ seg.flags &&& tcpAck ≠ 0 then
        (s.receive seg, none)
      else (s, none)

end Socket

/-- The socket table, in the order of the socket numbers. -/
abbrev Sockets := TreeMap Nat Socket

/-- The first socket of a type that is bound to a port. -/
def findBound (sockets : Sockets) (sockType : SocketType) (port : UInt16) : Option (Nat × Socket) :=
  sockets.toList.find? fun e => e.2.boundTo sockType port

def processTcp (sockets : Sockets) (data : List UInt8) : Sockets × Option OutSegment :=
  if data.length < 20 then (sockets, none)
  else
    let seg := TcpSegment.parse data
    match findBound sockets .stream seg.dstPort with
    | none => (sockets, none)
    | some (id, s) => (sockets.insert id (s.onSegment seg).1, (s.onSegment seg).2)

def processUdp (sockets : Sockets) (data : List UInt8) : Sockets :=
  if data.length < 8 then sockets
  else
    let payloadLen := (be16 data 4).toNat - 8
    match findBound sockets .dgram (be16 data 2) with
    | none => sockets
    | some (id, s) =>
      if 8 + payloadLen ≤ data.length then
        sockets.insert id { s with recvBuf := s.recvBuf ++ slice data 8 payloadLen }
      else sockets

/-! ## IPv4 -/

def headerLen (data : List UInt8) : Nat := (byteAt data 0 &&& 0x0F).toNat * 4

def ipv4Proto (data : List UInt8) : UInt8 := byteAt data 9

def ipv4Src (data : List UInt8) : Ipv4Address :=
  ⟨byteAt data 12, byteAt data 13, byteAt data 14, byteAt data 15⟩

def ipv4Dst (data : List UInt8) : Ipv4Address :=
  ⟨byteAt data 16, byteAt data 17, byteAt data 18, byteAt data 19⟩

/-- The payload of an IPv4 packet: everything behind the header, if the header fits. -/
def ipv4Payload (data : List UInt8) : Option (List UInt8) :=
  if data.length < 20 ∨ data.length < headerLen data then none
  else some (data.drop (headerLen data))

/-- `u16::from_be` on a little-endian machine. -/
def swapBytes (x : UInt16) : UInt16 := x <<< 8 ||| x >>> 8

/-- `extract_ports`: the number, put together in network order, is converted once more. -/
def extractPorts (proto : UInt8) (payload : List UInt8) : UInt16 × UInt16 :=
  if (proto = 6 ∨ proto = 17) ∧ 4 ≤ payload.length then
    (swapBytes (be16 payload 0), swapBytes (be16 payload 2))
  else (0, 0)

/-- The tables a packet can change. -/
structure NetState where
  firewall : FirewallState
  sockets : Sockets

/-- The flow that `process_ipv4` asks the firewall about. -/
def filteredFlow (data payload : List UInt8) : Flow where
  src := ipv4Src data
  dst := ipv4Dst data
  proto := ipv4Proto data
  srcPort := (extractPorts (ipv4Proto data) payload).1
  dstPort := (extractPorts (ipv4Proto data) payload).2

/-- The match on the protocol in `process_ipv4`; ICMP changes no table. -/
def dispatch (sockets : Sockets) (proto : UInt8) (payload : List UInt8) :
    Sockets × Option OutSegment :=
  if proto = 6 then processTcp sockets payload
  else if proto = 17 then (processUdp sockets payload, none)
  else (sockets, none)

def processIpv4 (st : NetState) (data : List UInt8) : NetState × Option OutSegment :=
  match ipv4Payload data with
  | none => (st, none)
  | some payload =>
    let filtered := st.firewall.filterPacket .input (filteredFlow data payload) data.length
    if filtered.1.passes then
      let delivered := dispatch st.sockets (ipv4Proto data) payload
      (⟨filtered.2, delivered.1⟩, delivered.2)
    else ({ st with firewall := filtered.2 }, none)

def processPacket (ipv6 : NetState → List UInt8 → NetState) (st : NetState) (frame : List UInt8) :
    NetState × Option OutSegment :=
  if frame.length < 14 then (st, none)
  else if be16 frame 12 = 0x0800 then processIpv4 st (frame.drop 14)
  else if be16 frame 12 = 0x86DD then (ipv6 st (frame.drop 14), none)
  else (st, none)

end KnoxOS.Net
