/-
Yfs.Wire.Types — the marshallable types, nested as templates nest them
(rpc/marshall.h, paxos_protocol.h, rsm_protocol.h, extent_protocol.h).

`Ty` is a type, `Ty.carrier` its values. A `std::map` keeps its entries in
the order of its keys, so the carrier of every type comes with the order
`operator<` gives it; numbers of a signed type are ordered by sign. A
struct is marshalled field by field, as nested pairs are.

`Ty.put` and `Ty.read` are the operators, by recursion on the type as the
templates instantiate; `Ty.bytes` is what travels.
-/
import Yfs.Lib.OrdMap
import Yfs.Wire.Scalars

namespace Yfs.Wire

open Yfs.Decode

inductive Ty where
  | bool
  | char
  | uchar
  | short
  | ushort
  | int
  | uint
  | ull
  | string
  | vec (t : Ty)
  | map (k v : Ty)
  | pair (a b : Ty)
  deriving DecidableEq, Repr

structure Ordered where
  carrier : Type
  order : LinearOrder carrier

@[reducible] def signedOrder (w : Nat) : LinearOrder (BitVec w) :=
  LinearOrder.lift' BitVec.toInt fun _ _ h => BitVec.eq_of_toInt_eq h

@[reducible] def unsignedOrder (w : Nat) : LinearOrder (BitVec w) :=
  LinearOrder.lift' BitVec.toNat fun _ _ h => BitVec.eq_of_toNat_eq h

@[reducible] def listOrder (o : Ordered) : LinearOrder (List o.carrier) :=
  letI := o.order
  inferInstance

@[reducible] def pairOrder (a b : Ordered) : LinearOrder (a.carrier × b.carrier) :=
  letI := a.order
  letI := b.order
  LinearOrder.lift' (fun p => (toLex p : a.carrier ×ₗ b.carrier)) toLex.injective

def mapOf (k v : Ordered) : Ordered :=
  letI := k.order
  letI := v.order
  ⟨OrdMap k.carrier v.carrier, inferInstance⟩

def Ty.interp : Ty → Ordered
  | .bool => ⟨Bool, inferInstance⟩
  | .char => ⟨BitVec 8, signedOrder 8⟩
  | .uchar => ⟨BitVec 8, unsignedOrder 8⟩
  | .short => ⟨BitVec 16, signedOrder 16⟩
  | .ushort => ⟨BitVec 16, unsignedOrder 16⟩
  | .int => ⟨BitVec 32, signedOrder 32⟩
  | .uint => ⟨BitVec 32, unsignedOrder 32⟩
  | .ull => ⟨BitVec 64, unsignedOrder 64⟩
  | .string => ⟨List Byte, listOrder ⟨Byte, unsignedOrder 8⟩⟩
  | .vec t => ⟨List t.interp.carrier, listOrder t.interp⟩
  | .map k v => mapOf k.interp v.interp
  | .pair a b => ⟨a.interp.carrier × b.interp.carrier, pairOrder a.interp b.interp⟩

abbrev Ty.carrier (t : Ty) : Type := t.interp.carrier

instance (t : Ty) : LinearOrder t.carrier := t.interp.order

/-! ## The operators -/

def putList {α : Type} (put : α → Put) : List α → Put
  | [] => some
  | x :: xs => Put.andThen (put x) (putList put xs)

/-- `operator<<`. -/
def Ty.put : (t : Ty) → t.carrier → Put
  | .bool, x => putBool x
  | .char, x => putChar x
  | .uchar, x => putUchar x
  | .short, x => putShort x
  | .ushort, x => putUshort x
  | .int, x => putInt x
  | .uint, x => putUint x
  | .ull, x => putUll x
  | .string, s => putString s
  | .vec t, (v : List t.carrier) =>
    Put.andThen (putUint (BitVec.ofNat 32 v.length)) (putList t.put v)
  | .map k v, (d : OrdMap k.carrier v.carrier) =>
    Put.andThen (putUint (BitVec.ofNat 32 d.entries.length))
      (putList (fun p => Put.andThen (k.put p.1) (v.put p.2)) d.entries)
  | .pair a b, x => Put.andThen (a.put x.1) (b.put x.2)

def Ty.read {m : Type → Type} [Monad m] (src : Source m) : (t : Ty) → m t.carrier
  | .bool => src.bool
  | .char => src.char
  | .uchar => src.char
  | .short => src.short (BitVec.signExtend 32)
  | .ushort => src.short (BitVec.setWidth 32)
  | .int => src.uint
  | .uint => src.uint
  | .ull => src.ull
  | .string => src.string
  | .vec t => do
    let n ← src.uint
    iterate (fun (v : List t.carrier) => do
      let z ← t.read src
      pure (v ++ [z])) n.toNat []
  | .map k v => do
    let n ← src.uint
    iterate (fun (d : OrdMap k.carrier v.carrier) => do
      let a ← k.read src
      let b ← v.read src
      pure (d.insert a b)) n.toNat OrdMap.empty
  | .pair a b => do
    let x ← a.read src
    let y ← b.read src
    pure (x, y)

def Ty.get (t : Ty) : Get t.carrier := t.read inputSource

def Ty.bytes : (t : Ty) → t.carrier → List Byte
  | .bool, (x : Bool) => [if x then 1 else 0]
  | .char, (x : BitVec 8) => [x]
  | .uchar, (x : BitVec 8) => [x]
  | .short, x => bytes16 x
  | .ushort, x => bytes16 x
  | .int, x => bytes32 x
  | .uint, x => bytes32 x
  | .ull, x => bytes64 x
  | .string, s => bytesString s
  | .vec t, (v : List t.carrier) => bytes32 (BitVec.ofNat 32 v.length) ++ v.flatMap t.bytes
  | .map k v, (d : OrdMap k.carrier v.carrier) =>
    bytes32 (BitVec.ofNat 32 d.entries.length) ++
      d.entries.flatMap fun p => k.bytes p.1 ++ v.bytes p.2
  | .pair a b, x => a.bytes x.1 ++ b.bytes x.2

end Yfs.Wire
