import Mathlib.Data.List.Basic

/-!
# The firewall

`net/firewall.rs`: chains of rules with a default policy. `filter_packet` walks a chain in order
and counts; `FirewallState.verdict` is the rule by which it decides, the first enabled rule that
matches and does not only log, and `filterPacket_fst` says that the walk finds that rule.
-/

namespace KnoxOS.Net

structure Ipv4Address where
  a : UInt8
  b : UInt8
  c : UInt8
  d : UInt8
deriving DecidableEq, Repr

inductive Chain where
  | input
  | output
  | forward
deriving DecidableEq, Repr

inductive Target where
  | accept
  | drop
  | reject
  | log
deriving DecidableEq, Repr

inductive Protocol where
  | any
  | tcp
  | udp
  | icmp
deriving DecidableEq, Repr

/-- `Protocol::matches`. -/
def Protocol.covers (p : Protocol) (ipProto : UInt8) : Bool :=
  match p with
  | .any => true
  | .tcp => ipProto == 6
  | .udp => ipProto == 17
  | .icmp => ipProto == 1

/-- What a rule looks at. -/
structure Flow where
  src : Ipv4Address
  dst : Ipv4Address
  proto : UInt8
  srcPort : UInt16
  dstPort : UInt16
deriving DecidableEq, Repr

/-- `Rule`, without number, interface and comment, which no packet is compared with. -/
structure Rule where
  chain : Chain
  target : Target
  protocol : Protocol
  srcIp : Option Ipv4Address
  srcMask : Option Ipv4Address
  dstIp : Option Ipv4Address
  dstMask : Option Ipv4Address
  srcPort : UInt16
  dstPort : UInt16
  enabled : Bool
  packets : Nat
  bytes : Nat
deriving DecidableEq, Repr

def ipMatches (ip ruleIp mask : Ipv4Address) : Bool :=
  ip.a &&& mask.a == ruleIp.a &&& mask.a && ip.b &&& mask.b == ruleIp.b &&& mask.b &&
    ip.c &&& mask.c == ruleIp.c &&& mask.c && ip.d &&& mask.d == ruleIp.d &&& mask.d

/-- An address against the address and mask of a rule; without an address all match. -/
def addressMatches (ip : Ipv4Address) (ruleIp mask : Option Ipv4Address) : Bool :=
  match ruleIp with
  | none => true
  | some ruleIp => ipMatches ip ruleIp (mask.getD ⟨255, 255, 255, 255⟩)

namespace Rule

def new (chain : Chain) (target : Target) : Rule where
  chain := chain
  target := target
  protocol := .any
  srcIp := none
  srcMask := none
  dstIp := none
  dstMask := none
  srcPort := 0
  dstPort := 0
  enabled := true
  packets := 0
  bytes := 0

/-- `Rule::matches`. -/
def covers (r : Rule) (f : Flow) : Bool :=
  r.protocol.covers f.proto && addressMatches f.src r.srcIp r.srcMask &&
    addressMatches f.dst r.dstIp r.dstMask && (r.srcPort == 0 || r.srcPort == f.srcPort) &&
    (r.dstPort == 0 || r.dstPort == f.dstPort)

/-- The rule ends the walk for a packet. -/
def decides (r : Rule) (f : Flow) : Bool := r.enabled && r.covers f && r.target != .log

/-- A packet is counted. -/
def count (r : Rule) (packetLen : Nat) : Rule :=
  { r with packets := r.packets + 1, bytes := r.bytes + packetLen }

end Rule

structure FirewallState where
  enabled : Bool
  inputRules : List Rule
  outputRules : List Rule
  forwardRules : List Rule
  inputPolicy : Target
  outputPolicy : Target
  forwardPolicy : Target
  totalPackets : Nat
  droppedPackets : Nat
  acceptedPackets : Nat
deriving DecidableEq, Repr

/-- The loop of `filter_packet`: the target of the rule that ended it, and the rules with their
counters. A rule that logs is counted and passed. -/
def walkRules (f : Flow) (packetLen : Nat) : List Rule → Option Target × List Rule
  | [] => (none, [])
  | r :: rest =>
    if !r.enabled then ((walkRules f packetLen rest).1, r :: (walkRules f packetLen rest).2)
    else if r.covers f then
      match r.target with
      | .log =>
        ((walkRules f packetLen rest).1, r.count packetLen :: (walkRules f packetLen rest).2)
      | target => (some target, r.count packetLen :: rest)
    else ((walkRules f packetLen rest).1, r :: (walkRules f packetLen rest).2)

namespace FirewallState

/-- The state the kernel starts with. -/
def initial : FirewallState where
  enabled := false
  inputRules := []
  outputRules := []
  forwardRules := []
  inputPolicy := .accept
  outputPolicy := .accept
  forwardPolicy := .drop
  totalPackets := 0
  droppedPackets := 0
  acceptedPackets := 0

def rules (fw : FirewallState) : Chain → List Rule
  | .input => fw.inputRules
  | .output => fw.outputRules
  | .forward => fw.forwardRules

def policy (fw : FirewallState) : Chain → Target
  | .input => fw.inputPolicy
  | .output => fw.outputPolicy
  | .forward => fw.forwardPolicy

def setRules (fw : FirewallState) (rules : List Rule) : Chain → FirewallState
  | .input => { fw with inputRules := rules }
  | .output => { fw with outputRules := rules }
  | .forward => { fw with forwardRules := rules }

/-- The counters after a decision; a policy that logs is not counted. -/
def countTarget (fw : FirewallState) : Target → FirewallState
  | .accept => { fw with acceptedPackets := fw.acceptedPackets + 1 }
  | .drop | .reject => { fw with droppedPackets := fw.droppedPackets + 1 }
  | .log => fw

def filterPacket (fw : FirewallState) (chain : Chain) (f : Flow) (packetLen : Nat) :
    Target × FirewallState :=
  if !fw.enabled then (.accept, fw)
  else
    let walked := walkRules f packetLen (fw.rules chain)
    let target := walked.1.getD (fw.policy chain)
    (target, ({ fw with totalPackets := fw.totalPackets + 1 }.setRules walked.2 chain).countTarget
      target)

/-- What the chain decides: the target of the first rule that decides, or else the policy. -/
def verdict (fw : FirewallState) (chain : Chain) (f : Flow) : Target :=
  (((fw.rules chain).find? (·.decides f)).map (·.target)).getD (fw.policy chain)

end FirewallState

/-- `Accept or Log`: `process_ipv4` goes on. -/
def Target.passes (t : Target) : Bool :=
  match t with
  | .accept | .log => true
  | .drop | .reject => false

/-- The walk stops at the first rule that decides. -/
theorem walkRules_fst (f : Flow) (packetLen : Nat) (rules : List Rule) :
    (walkRules f packetLen rules).1 = (rules.find? (·.decides f)).map (·.target) := by
  induction rules with
  | nil => rfl
  | cons r rest ih =>
    unfold walkRules
    by_cases henabled : r.enabled = true
    · by_cases hcovers : r.covers f = true
      · cases htarget : r.target <;>
          simp [henabled, hcovers, htarget, Rule.decides, ih]
      · simp [henabled, hcovers, Rule.decides, ih]
    · simp [henabled, Rule.decides, ih]

theorem FirewallState.filterPacket_fst {fw : FirewallState} (henabled : fw.enabled = true)
    (chain : Chain) (f : Flow) (packetLen : Nat) :
    (fw.filterPacket chain f packetLen).1 = fw.verdict chain f := by
  unfold filterPacket verdict
  rw [henabled, ← walkRules_fst f packetLen]
  rfl

end KnoxOS.Net
