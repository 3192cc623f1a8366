import KnoxOS.Lib.Reach
import KnoxOS.Net.Filtering

/-!
# The stream of a TCP peer

Runs of a connected socket: frames with segments of the peer's stream arrive, the process sends and
receives. A run remembers the bytes that `process_tcp` appended to the receive buffer and the moves
of `snd_una`. `stream_in_order` says that in every run in which each segment that is taken comes
next in the stream, fills its frame and acknowledges what was sent, the appended bytes are a part
of the stream from its start, `rcv_nxt` counts them, and `snd_una` moves forward only.
-/

namespace KnoxOS.Net

open TcpConnection List
open Std (TreeMap)
open Lib

namespace Stream

/-- The length of an IPv4 packet by its header. -/
def totalLength (packet : List UInt8) : Nat := (be16 packet 2).toNat

/-- A frame that carries a part of the stream to the port, cut in any way: both headers may have
options, and the frame may be longer than the packet. -/
structure PeerSegment (stream : List UInt8) (isn : UInt32) (port : UInt16) where
  frame : List UInt8
  packet : List UInt8
  /-- What `process_tcp` gets to see. -/
  tcp : List UInt8
  /-- The part of the stream, and where it begins. -/
  content : List UInt8
  offset : Nat
  ipv4 : IsIpv4 frame packet tcp
  proto : ipv4Proto packet = 6
  port_eq : be16 tcp 2 = port
  length : 20 ≤ tcp.length
  total : headerLen packet + tcpHeaderLen tcp ≤ totalLength packet
  fits : totalLength packet ≤ packet.length
  content_eq : content =
    slice tcp (tcpHeaderLen tcp) (totalLength packet - headerLen packet - tcpHeaderLen tcp)
  part : content <+: stream.drop offset
  seq : content ≠ [] → be32 tcp 4 = isn + 1 + UInt32.ofNat offset

/-- A step of `snd_una`, with the value of `snd_nxt`. -/
structure Move where
  una : UInt32
  nxt : UInt32
  una' : UInt32

/-- The new value is the old one or lies between it and `snd_nxt`, modulo `2 ^ 32`. -/
def Move.Forward (m : Move) : Prop := m.una' - m.una ≤ m.nxt - m.una

instance (m : Move) : Decidable m.Forward := inferInstanceAs (Decidable (_ ≤ _))

/-- The tables, the bytes that were appended and the moves of `snd_una`. -/
structure Run where
  net : NetState
  appended : List UInt8
  moves : List Move

/-- What can happen to the socket. -/
inductive Op (stream : List UInt8) (isn : UInt32) (port : UInt16) where
  | arrive (seg : PeerSegment stream isn port)
  | send (limit len : Nat)
  | recv (n : Nat)

section

variable {stream : List UInt8} {isn : UInt32} {port : UInt16} {s : Socket} {tcb : TcpConnection}

/-- The receive buffer of a socket. -/
def recvBuf (net : NetState) (id : Nat) : List UInt8 := ((net.sockets[id]?).map (·.recvBuf)).getD []

/-- The connection of a socket. -/
def connection (net : NetState) (id : Nat) : Option TcpConnection :=
  (net.sockets[id]?).bind (·.tcpConn)

/-- The move of `snd_una` between two states. -/
def moveOf (before after : Option TcpConnection) : List Move :=
  match before, after with
  | some tcb, some tcb' => [⟨tcb.sndUna, tcb.sndNxt, tcb'.sndUna⟩]
  | _, _ => []

/-- A call on the socket. -/
def onSocket (net : NetState) (id : Nat) (f : Socket → Socket) : NetState :=
  { net with sockets := net.sockets.modify id f }

def step (ipv6 : NetState → List UInt8 → NetState) (id : Nat) (r : Run) : Op stream isn port → Run
  | .arrive seg =>
    let net := (processPacket ipv6 r.net seg.frame).1
    { net := net
      appended := r.appended ++ (recvBuf net id).drop (recvBuf r.net id).length
      moves := moveOf (connection r.net id) (connection net id) ++ r.moves }
  | .send limit len => { r with net := onSocket r.net id fun s => (s.nicSend limit len).2 }
  | .recv n => { r with net := onSocket r.net id fun s => (s.recv n).2 }

/-- A connected socket; the last sequence number received is that of the SYN. -/
structure Start (isn : UInt32) (id : Nat) (r : Run) : Prop where
  connected : ∃ s tcb, r.net.sockets[id]? = some s ∧ s.state = .connected ∧
    s.tcpConn = some tcb ∧ tcb.rcvNxt = isn + 1
  appended : r.appended = []
  moves : r.moves = []

/-- The segment has the ACK flag and not the RST flag. -/
def Taken (seg : PeerSegment stream isn port) : Prop :=
  (TcpSegment.parse seg.tcp).flags &&& tcpRst = 0 ∧ (TcpSegment.parse seg.tcp).flags &&& tcpAck ≠ 0

instance (seg : PeerSegment stream isn port) : Decidable (Taken seg) :=
  inferInstanceAs (Decidable (_ ∧ _))

/-- A segment that is taken fills its frame, has the next bytes of the stream, and acknowledges a
position between `snd_una` and `snd_nxt`. -/
def Ok (id : Nat) (r : Run) : Op stream isn port → Prop
  | .arrive seg => Taken seg →
      seg.packet.length = totalLength seg.packet ∧
      (seg.content = [] ∨ seg.offset = r.appended.length) ∧
      ∀ tcb ∈ connection r.net id,
        (TcpSegment.parse seg.tcp).ack - tcb.sndUna ≤ tcb.sndNxt - tcb.sndUna
  | .send _ _ => True
  | .recv _ => True

/-- What the peer's stream asks of a state. -/
structure InOrder (stream : List UInt8) (isn : UInt32) (id : Nat) (r : Run) : Prop where
  delivered : r.appended <+: stream
  rcvNxt : ∀ tcb, connection r.net id = some tcb →
    tcb.rcvNxt = isn + 1 + UInt32.ofNat r.appended.length
  forward : ∀ m ∈ r.moves, m.Forward

/-- The invariant: besides, the socket is past the handshake. -/
structure Invariant (stream : List UInt8) (isn : UInt32) (id : Nat) (r : Run) : Prop where
  socket : ∃ s tcb, r.net.sockets[id]? = some s ∧ s.state ≠ .connecting ∧ s.tcpConn = some tcb
  inOrder : InOrder stream isn id r

/-! ## One segment -/

/-- What a segment does to a socket past the handshake. -/
theorem onSegment_cases (hstate : s.state ≠ .connecting) (htcb : s.tcpConn = some tcb)
    (seg : TcpSegment) : (s.onSegment seg).1 = s.reset ∨ (s.onSegment seg).1 = s ∨
      (seg.flags &&& tcpRst = 0 ∧ seg.flags &&& tcpAck ≠ 0 ∧
        (s.onSegment seg).1 = s.receive seg) := by
  unfold Socket.onSegment
  by_cases hrst : seg.flags &&& tcpRst = 0
  · rw [if_neg (by simpa using hrst), htcb]
    dsimp only
    rw [if_neg (fun h => hstate h.1)]
    split_ifs with hack
    · exact .inr (.inr ⟨hrst, hack.2, rfl⟩)
    · exact .inr (.inl rfl)
  · rw [if_pos hrst]
    exact .inl rfl

/-- The connection after a segment that is taken. -/
theorem receive_tcpConn (htcb : s.tcpConn = some tcb) (seg : TcpSegment) :
    ∃ tcb', (s.receive seg).tcpConn = some tcb' ∧ tcb'.sndUna = seg.ack ∧
      tcb'.rcvNxt = if seg.payload = [] then tcb.rcvNxt
        else seg.seq + UInt32.ofNat seg.payload.length := by
  unfold Socket.receive
  refine ⟨(tcb.acknowledge seg).advance seg, by rw [htcb]; rfl, ?_, ?_⟩
  · unfold advance acknowledge updateWindow
    split_ifs <;> rfl
  · unfold advance acknowledge updateWindow
    split_ifs <;> rfl

/-- A frame leaves the socket alone or shows it the segment. -/
theorem arrive_socket (ipv6 : NetState → List UInt8 → NetState) (net : NetState) (id : Nat)
    (hs : net.sockets[id]? = some s) (seg : PeerSegment stream isn port) :
    (processPacket ipv6 net seg.frame).1.sockets[id]? = some s ∨
      (processPacket ipv6 net seg.frame).1.sockets[id]? =
        some (s.onSegment (TcpSegment.parse seg.tcp)).1 := by
  rw [seg.ipv4.processPacket ipv6 net]
  unfold processIpv4
  rw [seg.ipv4.behind]
  dsimp only
  split_ifs with hpass
  · unfold dispatch processTcp
    rw [if_pos seg.proto, if_neg (Nat.not_lt.mpr seg.length)]
    dsimp only
    cases hfind : findBound net.sockets .stream (TcpSegment.parse seg.tcp).dstPort with
    | none => exact .inl hs
    | some e =>
      obtain ⟨id', s'⟩ := e
      rw [Lib.lookup_insert]
      by_cases hid : id' = id
      · have hs' : net.sockets[id']? = some s' :=
          mem_toList_iff.mp (mem_of_find?_eq_some hfind)
        rw [hid, hs] at hs'
        cases hs'
        rw [if_pos hid]
        exact .inr rfl
      · rw [if_neg hid]
        exact .inl hs
  · exact .inl hs

/-- The payload of a segment that fills its frame. -/
theorem payload_eq_content (seg : PeerSegment stream isn port)
    (hfull : seg.packet.length = totalLength seg.packet) :
    (TcpSegment.parse seg.tcp).payload = seg.content := by
  have htcp : seg.tcp = seg.packet.drop (headerLen seg.packet) := by
    have hbehind := seg.ipv4.behind
    unfold ipv4Payload at hbehind
    split_ifs at hbehind with h
    exact (Option.some.inj hbehind).symm
  have hlength : seg.tcp.length = totalLength seg.packet - headerLen seg.packet := by
    rw [htcp, length_drop, hfull]
  rw [seg.content_eq]
  show seg.tcp.drop (tcpHeaderLen seg.tcp) = _
  refine (take_of_length_le (Nat.le_of_eq ?_)).symm
  rw [length_drop, hlength]

/-! ## Runs -/

section

variable {id : Nat} {r : Run} {net : NetState} {s s' : Socket} {tcb tcb' : TcpConnection}
  {new : List UInt8}

theorem connection_eq (hs : net.sockets[id]? = some s) (htcb : s.tcpConn = some tcb) :
    connection net id = some tcb := by
  unfold connection
  rw [hs]
  exact htcb

section

variable (hinv : Invariant stream isn id r)
include hinv

/-- A state in which the socket has received the next bytes of the stream. -/
theorem Invariant.received (hs : r.net.sockets[id]? = some s) (htcb : s.tcpConn = some tcb)
    (hs' : net.sockets[id]? = some s') (hstate : s'.state ≠ .connecting)
    (htcb' : s'.tcpConn = some tcb') (hbuf : s'.recvBuf = s.recvBuf ++ new)
    (hnew : r.appended ++ new <+: stream)
    (hnxt : tcb'.rcvNxt = tcb.rcvNxt + UInt32.ofNat new.length)
    (hmove : tcb'.sndUna - tcb.sndUna ≤ tcb.sndNxt - tcb.sndUna) :
    Invariant stream isn id
      { net := net
        appended := r.appended ++ (recvBuf net id).drop (recvBuf r.net id).length
        moves := moveOf (connection r.net id) (connection net id) ++ r.moves } := by
  have hconn := connection_eq hs htcb
  have hconn' := connection_eq hs' htcb'
  have hgrown : (recvBuf net id).drop (recvBuf r.net id).length = new := by
    unfold recvBuf
    rw [hs, hs']
    show s'.recvBuf.drop s.recvBuf.length = new
    rw [hbuf, drop_left]
  rw [hgrown, hconn, hconn']
  refine ⟨⟨s', tcb', hs', hstate, htcb'⟩, hnew, fun tcb'' hconn'' => ?_, fun m hm => ?_⟩
  · rw [hconn'] at hconn''
    cases hconn''
    rw [hnxt, hinv.inOrder.rcvNxt tcb hconn, length_append, UInt32.ofNat_add, UInt32.add_assoc]
  · rcases mem_cons.mp hm with rfl | hold
    · exact hmove
    · exact hinv.inOrder.forward m hold

/-- A frame of the peer keeps the invariant. -/
theorem Invariant.arrive (ipv6 : NetState → List UInt8 → NetState)
    {seg : PeerSegment stream isn port} (hok : Ok id r (.arrive seg)) :
    Invariant stream isn id (step ipv6 id r (.arrive seg)) := by
  obtain ⟨s, tcb, hs, hstate, htcb⟩ := hinv.socket
  have hsame : tcb.rcvNxt = tcb.rcvNxt + UInt32.ofNat ([] : List UInt8).length :=
    (UInt32.add_zero _).symm
  have hnone : r.appended ++ [] <+: stream := by
    rw [append_nil]
    exact hinv.inOrder.delivered
  have hzero : tcb.sndUna - tcb.sndUna ≤ tcb.sndNxt - tcb.sndUna := by
    rw [UInt32.sub_self]
    exact UInt32.zero_le
  rcases arrive_socket ipv6 r.net id hs seg with hs' | hs'
  · exact hinv.received hs htcb hs' hstate htcb (append_nil _).symm hnone hsame hzero
  rcases onSegment_cases hstate htcb (TcpSegment.parse seg.tcp) with hcase | hcase | hcase
  · -- RST closes the connection and leaves its numbers alone
    rw [hcase] at hs'
    have hclosed : s.reset.state ≠ .connecting := nofun
    have htcb' : s.reset.tcpConn = some { tcb with state := .closed } := by
      unfold Socket.reset
      rw [htcb]
      rfl
    exact hinv.received hs htcb hs' hclosed htcb' (append_nil _).symm hnone hsame hzero
  · rw [hcase] at hs'
    exact hinv.received hs htcb hs' hstate htcb (append_nil _).symm hnone hsame hzero
  · obtain ⟨hrst, hack, hcase⟩ := hcase
    rw [hcase] at hs'
    obtain ⟨hfull, horder, hwindow⟩ := hok ⟨hrst, hack⟩
    have hconn := connection_eq hs htcb
    have hpayload := payload_eq_content seg hfull
    obtain ⟨tcb', htcb', huna, hnxt⟩ := receive_tcpConn htcb (TcpSegment.parse seg.tcp)
    refine hinv.received hs htcb hs' hstate htcb' (congrArg (s.recvBuf ++ ·) hpayload) ?_ ?_ ?_
    · -- the appended bytes are followed by the content in the stream
      rcases horder with hempty | hnext
      · rw [hempty]
        exact hnone
      · obtain ⟨rest, hrest⟩ := hinv.inOrder.delivered
        obtain ⟨later, hlater⟩ := seg.part
        have hdrop : stream.drop r.appended.length = rest := by
          rw [← hrest, drop_left]
        refine ⟨later, ?_⟩
        rw [append_assoc, hlater, hnext, hdrop, hrest]
    · rw [hnxt, hpayload]
      split_ifs with hempty
      · rw [hempty]
        exact hsame
      · have hseq : (TcpSegment.parse seg.tcp).seq = be32 seg.tcp 4 := rfl
        rw [hseq, seg.seq hempty, horder.resolve_left hempty, ← hinv.inOrder.rcvNxt tcb hconn]
    · rw [huna]
      exact hwindow tcb hconn

/-- A call on the socket that leaves its state and its numbers but `snd_nxt` alone. -/
theorem Invariant.onSocket {f : Socket → Socket} (hstate : ∀ s, (f s).state = s.state)
    (htcb : ∀ s tcb, s.tcpConn = some tcb →
      ∃ tcb', (f s).tcpConn = some tcb' ∧ tcb'.rcvNxt = tcb.rcvNxt) :
    Invariant stream isn id { r with net := Stream.onSocket r.net id f } := by
  obtain ⟨s, tcb, hs, hsocket, hconn⟩ := hinv.socket
  obtain ⟨tcb', hconn', hnxt⟩ := htcb s tcb hconn
  have hs' : (Stream.onSocket r.net id f).sockets[id]? = some (f s) := by
    show (r.net.sockets.modify id f)[id]? = _
    rw [Lib.lookup_modify, if_pos rfl, hs]
    rfl
  refine ⟨⟨f s, tcb', hs', by rw [hstate]; exact hsocket, hconn'⟩, hinv.inOrder.delivered, ?_,
    hinv.inOrder.forward⟩
  intro tcb'' hconn''
  have heq : some tcb' = some tcb'' := (connection_eq hs' hconn').symm.trans hconn''
  cases heq
  rw [hnxt]
  exact hinv.inOrder.rcvNxt tcb (connection_eq hs hconn)

end

/-- Sending keeps the state and `rcv_nxt`. -/
theorem nicSend_frame (limit len : Nat) (s : Socket) : (s.nicSend limit len).2.state = s.state ∧
    ∀ tcb, s.tcpConn = some tcb → ∃ tcb', (s.nicSend limit len).2.tcpConn = some tcb' ∧
      tcb'.rcvNxt = tcb.rcvNxt := by
  unfold Socket.nicSend
  by_cases hstate : s.state ≠ .connected
  · rw [if_pos hstate]
    exact ⟨rfl, fun tcb htcb => ⟨tcb, htcb, rfl⟩⟩
  · rw [if_neg hstate]
    cases hconn : s.tcpConn with
    | none => exact ⟨rfl, fun tcb htcb => nomatch htcb⟩
    | some tcb₀ =>
      dsimp only
      by_cases hlimit : limit = 0
      · rw [if_pos hlimit]
        exact ⟨rfl, fun tcb htcb => ⟨tcb, hconn.trans htcb, rfl⟩⟩
      · rw [if_neg hlimit]
        refine ⟨rfl, fun tcb htcb => ?_⟩
        cases htcb
        exact ⟨_, rfl, rfl⟩

theorem recv_frame (n : Nat) (s : Socket) : (s.recv n).2.state = s.state ∧
    (s.recv n).2.tcpConn = s.tcpConn := by
  unfold Socket.recv
  split_ifs <;> exact ⟨rfl, rfl⟩

end

/-- In every run whose segments meet `Ok` the stream is delivered in order. -/
theorem stream_in_order {ipv6 : NetState → List UInt8 → NetState} {id : Nat} {start r : Run}
    (hstart : Start isn id start)
    (hreach : Reach (fun r (op : Op stream isn port) => step ipv6 id r op) (Ok id) start r) :
    InOrder stream isn id r := by
  have hinv : Invariant stream isn id r := by
    refine hreach.invariant (Invariant stream isn id) ?_ ?_
    · obtain ⟨s, tcb, hs, hstate, htcb, hnxt⟩ := hstart.connected
      refine ⟨⟨s, tcb, hs, by rw [hstate]; decide, htcb⟩, ?_, fun tcb' htcb' => ?_, ?_⟩
      · rw [hstart.appended]
        exact nil_prefix
      · unfold connection at htcb'
        rw [hs] at htcb'
        have heq : some tcb = some tcb' := htcb.symm.trans htcb'
        cases heq
        rw [hnxt, hstart.appended]
        exact (UInt32.add_zero _).symm
      · rw [hstart.moves]
        nofun
    · intro r op hinv hok
      cases op with
      | arrive seg => exact hinv.arrive ipv6 hok
      | send limit len =>
        refine hinv.onSocket (fun s => (nicSend_frame limit len s).1) fun s tcb htcb => ?_
        exact (nicSend_frame limit len s).2 tcb htcb
      | recv n =>
        refine hinv.onSocket (fun s => (recv_frame n s).1) fun s tcb htcb => ?_
        exact ⟨tcb, (recv_frame n s).2.trans htcb, rfl⟩
  exact hinv.inOrder

end

instance (stream : List UInt8) (isn : UInt32) (port : UInt16) (id : Nat) (r : Run)
    (op : Op stream isn port) : Decidable (Ok id r op) :=
  match op with
  | .arrive seg => inferInstanceAs
      (Decidable (Taken seg → _ ∧ (_ ∨ _) ∧ ∀ tcb ∈ connection r.net id, _ ≤ _))
  | .send _ _ => .isTrue trivial
  | .recv _ => .isTrue trivial

/-- A socket on port 49152, connected to a peer with initial sequence number 100. -/
def connectedSocket : Socket where
  sockType := .stream
  state := .connected
  localAddr := some (.inet ⟨0, 0, 0, 0⟩ 49152)
  recvBuf := []
  tcpConn := some ⟨.established, 49152, ⟨10, 0, 2, 100⟩, 80, 204, 201, 101, 65535, 65535, []⟩
  nonblocking := false

def connected : Run where
  net := ⟨FirewallState.initial, (∅ : Sockets).insert 1 connectedSocket⟩
  appended := []
  moves := []

theorem connected_start : Start 100 1 connected :=
  ⟨⟨connectedSocket, _, Std.TreeMap.getElem?_insert_self, rfl, rfl, rfl⟩, rfl, rfl⟩

/-- A frame with an ACK segment from the peer. -/
def ackFrame (seq ack : UInt8) (content : List UInt8) : List UInt8 :=
  [0, 0, 0, 0, 0, 0, 0, 0, 0, 0, 0, 0, 0x08, 0x00,
    0x45, 0, 0, 40 + UInt8.ofNat content.length, 0, 0, 0x40, 0, 64, 6, 0, 0, 10, 0, 2, 100,
    10, 0, 2, 15,
    0, 80, 0xC0, 0, 0, 0, 0, seq, 0, 0, 0, ack, 0x50, 0x10, 0xFF, 0xFF, 0, 0, 0, 0] ++ content

/-- The first two bytes of the stream `[65, 66, 67]`. -/
def firstSegment : PeerSegment [65, 66, 67] 100 49152 where
  frame := ackFrame 101 202 [65, 66]
  packet := (ackFrame 101 202 [65, 66]).drop 14
  tcp := (ackFrame 101 202 [65, 66]).drop 34
  content := [65, 66]
  offset := 0
  ipv4 := ⟨by decide, by decide, rfl, by decide⟩
  proto := by decide
  port_eq := by decide
  length := by decide
  total := by decide
  fits := by decide
  content_eq := by decide
  part := ⟨[67], rfl⟩
  seq := fun _ => by decide

/-- The third byte. -/
def secondSegment : PeerSegment [65, 66, 67] 100 49152 where
  frame := ackFrame 103 204 [67]
  packet := (ackFrame 103 204 [67]).drop 14
  tcp := (ackFrame 103 204 [67]).drop 34
  content := [67]
  offset := 2
  ipv4 := ⟨by decide, by decide, rfl, by decide⟩
  proto := by decide
  port_eq := by decide
  length := by decide
  total := by decide
  fits := by decide
  content_eq := by decide
  part := ⟨[], rfl⟩
  seq := fun _ => by decide

/-- Both segments in order, with a read and a send in between. -/
def inSequence : List (Op [65, 66, 67] 100 49152) :=
  [.arrive firstSegment, .recv 1, .send 1460 8, .arrive secondSegment]

theorem stream_in_order_two_segments : InOrder [65, 66, 67] 100 1
    (inSequence.foldl (fun r op => step (fun net _ => net) 1 r op) connected) := by
  have hadmitted : Admitted (fun r (op : Op [65, 66, 67] 100 49152) =>
      step (fun net _ => net) 1 r op) (Ok 1) connected inSequence := by decide +kernel
  exact stream_in_order connected_start (Reach.start.foldl hadmitted)

/-- The first segment arrives twice. -/
def retransmitted : List (Op [65, 66, 67] 100 49152) := [.arrive firstSegment, .arrive firstSegment]

theorem retransmission_is_appended_twice :
    Start 100 1 connected ∧
      Reach (fun r (op : Op [65, 66, 67] 100 49152) => step (fun net _ => net) 1 r op)
        (fun _ _ => True) connected
        (retransmitted.foldl (fun r op => step (fun net _ => net) 1 r op) connected) ∧
      ¬ InOrder [65, 66, 67] 100 1
        (retransmitted.foldl (fun r op => step (fun net _ => net) 1 r op) connected) := by
  refine ⟨connected_start, Reach.free retransmitted, fun horder => ?_⟩
  have happended : (retransmitted.foldl (fun r op => step (fun net _ => net) 1 r op)
      connected).appended = [65, 66, 65, 66] := by decide +kernel
  have hlength := horder.delivered.length_le
  rw [happended] at hlength
  exact absurd hlength (by decide)

end Stream

end KnoxOS.Net
