import SparkTP4.CycleWalk
import Mathlib.Algebra.Group.Nat.Defs

/-!
# The order of the hosts on a switchless ring

Four hosts are cabled in a ring, each cable its own fabric subnet. `ring_order` reads the
cabling from the addresses of the ports – two ports on one subnet are the ends of a cable – and
follows the clockwise ports from the first host until it is back there. `topology` then names,
for each rank, direction and function, the port and the peer it is to reach.

The inventory of a host is its ports by name, each with an address; any address may be on any
subnet. A host that is *reversed* has the roles of its `f0` and `f1` ports swapped. The search
has no bound in the source; the model's is an argument, and every result is stated for all
bounds that are large enough.
-/

namespace RingMesh

open CycleWalk

variable {H : Type} [DecidableEq H]

inductive Direction where
  | clockwise
  | counterClockwise
  deriving DecidableEq

/-- `FLIP` -/
def Direction.flip : Direction → Direction
  | .clockwise => .counterClockwise
  | .counterClockwise => .clockwise

/-- `PORTS` -/
def ports : Direction → Fin 2 → String
  | .clockwise, 0 => "enp1s0f0np0"
  | .clockwise, 1 => "enP2p1s0f0np0"
  | .counterClockwise, 0 => "enp1s0f1np1"
  | .counterClockwise, 1 => "enP2p1s0f1np1"

/-- An entry of a host's inventory. -/
structure Port where
  /-- The IPv4 address, as a number. -/
  ip : ℕ
  prefixLen : ℕ
  mac : String
  rdma : String

/-- `ipaddress.ip_interface(p["ipv4"]).network` -/
def Port.network (p : Port) : ℕ × ℕ :=
  (p.ip / 2 ^ (32 - p.prefixLen) * 2 ^ (32 - p.prefixLen), p.prefixLen)

/-- `invs`: the ports of each host, by the name of the netdev. -/
structure Inventory (H : Type) where
  ports : H → List (String × Port)
  nodup : ∀ h, ((ports h).map Prod.fst).Nodup

/-- `invs[h]["ports"][nd]` -/
def Inventory.port (inv : Inventory H) (h : H) (nd : String) : Option Port :=
  ((inv.ports h).find? fun p => p.1 = nd).map Prod.snd

/-- A host and one of its netdevs. -/
abbrev End (H : Type) := H × String

/-- `port` -/
def port (reversed : List H) (h : H) (d : Direction) (f : Fin 2) : String :=
  ports (if h ∈ reversed then d.flip else d) f

/-- The exits of `ring_order`. -/
inductive Error (H : Type) where
  /-- fabric subnet shared by … ports -/
  | sharedSubnet (ends : List (End H))
  /-- … reaches …; sparkring needs every f0 port cabled to the next node's f1 port -/
  | notFacing (cur : H) (out : String) (reached : Option (End H))
  /-- its two f0 functions reach different nodes -/
  | differentNodes (cur : H) (nxt : H × H)
  /-- not a four-node ring -/
  | notRing (order : List H)
  deriving DecidableEq

variable (inv : Inventory H) (hosts reversed : List H)

/-- The ports of the hosts with their subnets, in the order of the loop. -/
def endsWithNet : List (End H × (ℕ × ℕ)) :=
  hosts.flatMap fun h => (inv.ports h).map fun p => ((h, p.1), p.2.network)

/-- `net[n]` -/
def endsOf (n : ℕ × ℕ) : List (End H) :=
  ((endsWithNet inv hosts).filter fun e => e.2 = n).map Prod.fst

/-- The keys of `net`, in the order of insertion. -/
def networks : List (ℕ × ℕ) := ((endsWithNet inv hosts).map Prod.snd).eraseDups

/-- The two entries of `peer` for a subnet. -/
def pair : List (End H) → Except (Error H) (List (End H × End H))
  | [e₁, e₂] => .ok [(e₁, e₂), (e₂, e₁)]
  | ends => .error (.sharedSubnet ends)

/-- The assignments to `peer` for these subnets, in order. -/
def peersFrom : List (ℕ × ℕ) → Except (Error H) (List (End H × End H))
  | [] => .ok []
  | n :: ns => (pair (endsOf inv hosts n)).bind fun two => (peersFrom ns).map (two ++ ·)

/-- The assignments to `peer`. -/
def peerTable : Except (Error H) (List (End H × End H)) :=
  peersFrom inv hosts (networks inv hosts)

/-- `peer.get(e)`: the last assignment counts. -/
def peerOf (table : List (End H × End H)) (e : End H) : Option (End H) :=
  (table.reverse.find? fun b => b.1 = e).map Prod.snd

/-- The host that the clockwise port of function `f` reaches. -/
def facing (table : List (End H × End H)) (cur : H) (f : Fin 2) : Except (Error H) H :=
  let out := port reversed cur .clockwise f
  match peerOf table (cur, out) with
  | none => .error (.notFacing cur out none)
  | some (h, nd) =>
    if nd = port reversed h .counterClockwise f then .ok h
    else .error (.notFacing cur out (some (h, nd)))

/-- One step of the search. -/
def nextHost (table : List (End H × End H)) (cur : H) : Except (Error H) H :=
  (facing reversed table cur 0).bind fun h₀ =>
    (facing reversed table cur 1).bind fun h₁ =>
      if h₀ = h₁ then .ok h₀ else .error (.differentNodes cur (h₀, h₁))

/-- The test after the search. -/
def checkRing (order : List H) : Except (Error H) (List H) :=
  if order.isPerm hosts ∧ order.length = 4 then .ok order else .error (.notRing order)

/-- `ring_order`, whose search makes at most `fuel` steps: `none` where it has not ended. -/
def ringOrder (first : H) (fuel : ℕ) : Option (Except (Error H) (List H)) :=
  match peerTable inv hosts with
  | .error e => some (.error e)
  | .ok table =>
    (walk (nextHost reversed table) first fuel [first] first).map fun r => r.bind (checkRing hosts)

/-! ## `topology` -/

/-- A port of a rank in the topology document. -/
structure TopoPort where
  function : Fin 2
  netdev : String
  rdmaDevice : String
  /-- The address, as a `/32`. -/
  ipv4 : ℕ
  mac : String
  peerRank : ℕ
  peerDirection : Direction
  peerFunction : Fin 2

/-- The peer's rank. -/
def peerRank (r : ℕ) : Direction → ℕ
  | .clockwise => (r + 1) % 4
  | .counterClockwise => (r + 3) % 4

/-- The entry of a rank, a direction and a function; `none` for a netdev the inventory lacks. -/
def topoPort (order : List H) (r : ℕ) (d : Direction) (f : Fin 2) : Option TopoPort :=
  order[r]?.bind fun h =>
    (inv.port h (port reversed h d f)).map fun p =>
      { function := f, netdev := port reversed h d f, rdmaDevice := p.rdma, ipv4 := p.ip
        mac := p.mac, peerRank := peerRank r d, peerDirection := d.flip, peerFunction := f }

end RingMesh
