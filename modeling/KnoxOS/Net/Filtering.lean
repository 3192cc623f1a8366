import KnoxOS.Net.Packet

/-!
# What the firewall judges

The ports of a packet are decoded twice, for the firewall and for the socket. `firewall_judges_iff`
says when the firewall judges the packet that is delivered: the two decodings differ by a swap of
the bytes, so the verdict on the swapped ports has to imply the verdict on the ports, and this is
so for every rule set exactly for the packets whose ports have two equal bytes.
-/

namespace KnoxOS.Net

open FirewallState
open Std (TreeMap)
open Lib

/-- The flow of a packet, with the ports by which a socket is looked up. -/
def realFlow (data payload : List UInt8) : Flow where
  src := ipv4Src data
  dst := ipv4Dst data
  proto := ipv4Proto data
  srcPort := be16 payload 0
  dstPort := be16 payload 2

/-- The socket that `process_tcp` or `process_udp` picks for a payload. -/
def targetSocket (sockets : Sockets) (proto : UInt8) (payload : List UInt8) :
    Option (Nat × Socket) :=
  if proto = 6 then
    if payload.length < 20 then none else findBound sockets .stream (be16 payload 2)
  else if proto = 17 then
    if payload.length < 8 then none else findBound sockets .dgram (be16 payload 2)
  else none

/-- An IPv4 frame with the given packet and payload. -/
structure IsIpv4 (frame data payload : List UInt8) : Prop where
  length : 14 ≤ frame.length
  etherType : be16 frame 12 = 0x0800
  packet : data = frame.drop 14
  behind : ipv4Payload data = some payload

/-- The frame is a TCP or UDP packet of the flow for a socket in the table. -/
def Addressed (sockets : Sockets) (frame : List UInt8) (id : Nat) (f : Flow) : Prop :=
  ∃ data payload s, IsIpv4 frame data payload ∧ f = realFlow data payload ∧
    targetSocket sockets (ipv4Proto data) payload = some (id, s)

/-- The frame passes the firewall and reaches the socket. -/
def Reaches (st : NetState) (frame : List UInt8) (id : Nat) (f : Flow) : Prop :=
  ∃ data payload s, IsIpv4 frame data payload ∧ f = realFlow data payload ∧
    (st.firewall.filterPacket .input (filteredFlow data payload) data.length).1.passes = true ∧
    targetSocket st.sockets (ipv4Proto data) payload = some (id, s)

/-- The INPUT chain lets a flow through. -/
def Accepts (fw : FirewallState) (f : Flow) : Prop := (fw.verdict .input f).passes = true

/-- The firewall judges the packet that is delivered: a flow that reaches a socket is accepted, and
a packet whose flow is not accepted changes no socket. -/
structure Judged (st : NetState) (frame : List UInt8) : Prop where
  accepted : ∀ id f, Reaches st frame id f → Accepts st.firewall f
  unchanged : ∀ data payload, IsIpv4 frame data payload →
    ¬ Accepts st.firewall (realFlow data payload) →
      ∀ ipv6, (processPacket ipv6 st frame).1.sockets = st.sockets

variable {payload : List UInt8} {sockets : Sockets} {e : Nat × Socket}

/-- The flow with the bytes of its ports swapped. -/
def Flow.swapped (f : Flow) : Flow :=
  { f with srcPort := swapBytes f.srcPort, dstPort := swapBytes f.dstPort }

/-! ## The two decodings -/

theorem length_of_targetSocket {proto : UInt8} (h : targetSocket sockets proto payload = some e) :
    (proto = 6 ∨ proto = 17) ∧ 4 ≤ payload.length := by
  unfold targetSocket at h
  split_ifs at h with htcp hlen hudp hlen
  · exact ⟨.inl htcp, by omega⟩
  · exact ⟨.inr hudp, by omega⟩

theorem filteredFlow_eq_swapped {data : List UInt8}
    (h : targetSocket sockets (ipv4Proto data) payload = some e) :
    filteredFlow data payload = (realFlow data payload).swapped := by
  unfold filteredFlow extractPorts
  rw [if_pos (length_of_targetSocket h)]
  rfl

/-- A packet without a socket changes none. -/
theorem dispatch_of_targetSocket_eq_none {proto : UInt8}
    (h : targetSocket sockets proto payload = none) :
    (dispatch sockets proto payload).1 = sockets := by
  unfold targetSocket at h
  unfold dispatch
  split_ifs at h ⊢ with htcp hlen hudp hlen
  · unfold processTcp
    rw [if_pos hlen]
  · unfold processTcp
    have hport : (TcpSegment.parse payload).dstPort = be16 payload 2 := rfl
    rw [if_neg hlen]
    simp only [hport, h]
  · unfold processUdp
    rw [if_pos hlen]
  · unfold processUdp
    rw [if_neg hlen]
    simp only [h]
  · rfl

theorem IsIpv4.processPacket {frame data : List UInt8} (hip : IsIpv4 frame data payload)
    (ipv6 : NetState → List UInt8 → NetState) (st : NetState) :
    processPacket ipv6 st frame = processIpv4 st data := by
  unfold Net.processPacket
  rw [if_neg (Nat.not_lt.mpr hip.length), if_pos hip.etherType, ← hip.packet]

section

variable {st : NetState} {frame : List UInt8}

/-- A packet reaches its socket if the firewall accepts its swapped ports. -/
theorem reaches_iff (henabled : st.firewall.enabled = true) (id : Nat) (f : Flow) :
    Reaches st frame id f ↔ Addressed st.sockets frame id f ∧ Accepts st.firewall f.swapped := by
  constructor
  · intro hreach
    obtain ⟨data, payload, s, hip, rfl, hpass, htarget⟩ := hreach
    rw [filterPacket_fst henabled, filteredFlow_eq_swapped htarget] at hpass
    exact ⟨⟨data, payload, s, hip, rfl, htarget⟩, hpass⟩
  · intro hboth
    obtain ⟨⟨data, payload, s, hip, rfl, htarget⟩, hpass⟩ := hboth
    refine ⟨data, payload, s, hip, rfl, ?_, htarget⟩
    rw [filterPacket_fst henabled, filteredFlow_eq_swapped htarget]
    exact hpass

/-- A frame that reaches no socket changes none. -/
theorem sockets_eq_of_not_reaches {data payload : List UInt8} (hip : IsIpv4 frame data payload)
    (h : ∀ id, ¬ Reaches st frame id (realFlow data payload))
    (ipv6 : NetState → List UInt8 → NetState) :
    (processPacket ipv6 st frame).1.sockets = st.sockets := by
  rw [hip.processPacket ipv6 st]
  unfold processIpv4
  rw [hip.behind]
  dsimp only
  split_ifs with hpass
  · cases htarget : targetSocket st.sockets (ipv4Proto data) payload with
    | none => exact dispatch_of_targetSocket_eq_none htarget
    | some e => exact absurd ⟨data, payload, e.2, hip, rfl, hpass, htarget⟩ (h e.1)
  · rfl

theorem judged_iff_accepted :
    Judged st frame ↔ ∀ id f, Reaches st frame id f → Accepts st.firewall f := by
  refine ⟨Judged.accepted, fun haccepted => ⟨haccepted, fun data payload hip hrejected => ?_⟩⟩
  exact sockets_eq_of_not_reaches hip fun id hreach => hrejected (haccepted id _ hreach)

end

/-! ## Rules on one port -/

/-- A firewall with the one rule to drop packets to and from the given ports. -/
def dropPorts (srcPort dstPort : UInt16) : FirewallState :=
  { FirewallState.initial with
    enabled := true
    inputRules := [{ Rule.new .input .drop with srcPort := srcPort, dstPort := dstPort }] }

/-- What a rule that drops two ports accepts. -/
theorem accepts_dropPorts (srcPort dstPort : UInt16) (f : Flow) :
    Accepts (dropPorts srcPort dstPort) f ↔
      ¬ ((srcPort = 0 ∨ srcPort = f.srcPort) ∧ (dstPort = 0 ∨ dstPort = f.dstPort)) := by
  unfold Accepts verdict rules policy dropPorts
  by_cases h : (srcPort = 0 ∨ srcPort = f.srcPort) ∧ (dstPort = 0 ∨ dstPort = f.dstPort)
  · simp [Rule.decides, Rule.covers, Rule.new, Protocol.covers, addressMatches, h, Target.passes]
  · simp [Rule.decides, Rule.covers, Rule.new, Protocol.covers, addressMatches, h,
      initial, Target.passes]

/-- Ports that are judged under every rule set have two equal bytes each. -/
theorem swapBytes_eq_of_accepts {f : Flow}
    (h : ∀ fw : FirewallState, fw.enabled = true → Accepts fw f.swapped → Accepts fw f) :
    swapBytes f.srcPort = f.srcPort ∧ swapBytes f.dstPort = f.dstPort := by
  have hzero : swapBytes 0 = 0 := by decide
  constructor
  · by_contra hne
    have hport : f.srcPort ≠ 0 := by
      intro heq
      rw [heq] at hne
      exact hne hzero
    refine (accepts_dropPorts f.srcPort 0 f).mp (h _ rfl ?_) ⟨.inr rfl, .inl rfl⟩
    refine (accepts_dropPorts f.srcPort 0 f.swapped).mpr fun hmatch => ?_
    exact hne (hmatch.1.resolve_left hport).symm
  · by_contra hne
    have hport : f.dstPort ≠ 0 := by
      intro heq
      rw [heq] at hne
      exact hne hzero
    refine (accepts_dropPorts 0 f.dstPort f).mp (h _ rfl ?_) ⟨.inl rfl, .inr rfl⟩
    refine (accepts_dropPorts 0 f.dstPort f.swapped).mpr fun hmatch => ?_
    exact hne (hmatch.2.resolve_left hport).symm

/-- Under an enabled firewall, a frame is judged as it is delivered exactly when the INPUT chain
accepts the flow to its socket if it accepts the flow with swapped ports. All firewalls judge a
frame so exactly when it is for no socket, or each of its ports has two equal bytes. -/
theorem firewall_judges_iff (sockets : Sockets) (frame : List UInt8) :
    (∀ fw : FirewallState, fw.enabled = true → (Judged ⟨fw, sockets⟩ frame ↔
      ∀ id f, Addressed sockets frame id f → Accepts fw f.swapped → Accepts fw f)) ∧
    ((∀ fw : FirewallState, fw.enabled = true → Judged ⟨fw, sockets⟩ frame) ↔
      ∀ id f, Addressed sockets frame id f →
        swapBytes f.srcPort = f.srcPort ∧ swapBytes f.dstPort = f.dstPort) := by
  have hone : ∀ fw : FirewallState, fw.enabled = true → (Judged ⟨fw, sockets⟩ frame ↔
      ∀ id f, Addressed sockets frame id f → Accepts fw f.swapped → Accepts fw f) := by
    intro fw henabled
    rw [judged_iff_accepted]
    constructor
    · intro h id f haddressed hswapped
      exact h id f ((reaches_iff henabled id f).mpr ⟨haddressed, hswapped⟩)
    · intro h id f hreach
      obtain ⟨haddressed, hswapped⟩ := (reaches_iff henabled id f).mp hreach
      exact h id f haddressed hswapped
  refine ⟨hone, ?_⟩
  constructor
  · intro hall id f haddressed
    refine swapBytes_eq_of_accepts fun fw henabled hswapped => ?_
    exact (hone fw henabled).mp (hall fw henabled) id f haddressed hswapped
  · intro hports fw henabled
    refine (hone fw henabled).mpr fun id f haddressed hswapped => ?_
    obtain ⟨hsrc, hdst⟩ := hports id f haddressed
    have hsame : f.swapped = f := by
      unfold Flow.swapped
      rw [hsrc, hdst]
    rw [hsame] at hswapped
    exact hswapped

/-- A UDP socket on port 8080. -/
def udpSocket : Socket where
  sockType := .dgram
  state := .bound
  localAddr := some (.inet ⟨0, 0, 0, 0⟩ 8080)
  recvBuf := []
  tcpConn := none
  nonblocking := false

/-- Packets to port 8080 are dropped. -/
def closedPort : NetState where
  firewall := dropPorts 0 8080
  sockets := (∅ : Sockets).insert 1 udpSocket

/-- A UDP packet from 10.0.2.2, port 5000, to 10.0.2.15, port 8080, with payload 42. -/
def udpFrame : List UInt8 :=
  [0, 0, 0, 0, 0, 0, 0, 0, 0, 0, 0, 0, 0x08, 0x00,
    0x45, 0, 0, 29, 0, 0, 0x40, 0, 64, 17, 0, 0, 10, 0, 2, 2, 10, 0, 2, 15,
    0x13, 0x88, 0x1F, 0x90, 0, 9, 0, 0, 42]

theorem udpFrame_isIpv4 : IsIpv4 udpFrame (udpFrame.drop 14) (udpFrame.drop 34) :=
  ⟨by decide, by decide, rfl, by decide⟩

/-- The firewall looks for port 36895, and the packet is delivered. -/
theorem dropped_port_is_delivered :
    closedPort.firewall.enabled = true ∧ ¬ Judged closedPort udpFrame ∧
      ∀ ipv6, ((processPacket ipv6 closedPort udpFrame).1.sockets[1]?).map (·.recvBuf) =
        some [42] := by
  have hdelivered : ∀ ipv6, ((processPacket ipv6 closedPort udpFrame).1.sockets[1]?).map
      (·.recvBuf) = some [42] := by
    intro ipv6
    rw [udpFrame_isIpv4.processPacket]
    decide +kernel
  refine ⟨rfl, fun hjudged => ?_, hdelivered⟩
  have hrejected : ¬ Accepts closedPort.firewall
      (realFlow (udpFrame.drop 14) (udpFrame.drop 34)) := by
    unfold Accepts
    decide +kernel
  have hchanged := hdelivered fun st _ => st
  rw [hjudged.unchanged _ _ udpFrame_isIpv4 hrejected fun st _ => st] at hchanged
  have hbefore : (closedPort.sockets[1]?).map (·.recvBuf) = some [] := by decide +kernel
  rw [hbefore] at hchanged
  exact absurd hchanged (by decide)

end KnoxOS.Net
