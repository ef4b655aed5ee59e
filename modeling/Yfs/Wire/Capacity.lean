/-
Yfs.Wire.Capacity — every store of a `marshall` is inside its buffer
(rpc/rpc.cc, rpc/marshall.h).

`Marshall` computes where bytes go; whether they are within the capacity of
that moment, and whether an `int` overflows on the way, is about each single
store. So the operators are taken apart: `Prim` is one `rawbyte`, one
`rawbytes`, or one of the two moves of `_ind` in the header functions, and
each operator is a list of them (`Expands`: run one by one they do what the
operator does).

`rawbyte` doubles a full buffer, `rawbytes` doubles it or adds `n`. Either is
enough in one step: that is `writes_rawbyte` and `writes_rawbytes`, from any
`Ready` buffer. Below `2³⁰` bytes no operator fails (`Writes.total`), and a
step that does not fail is `InCapacity`; `capacity_suffices` is about every
step of every sequence of operations.
-/
import Yfs.Lib.Run
import Yfs.Wire.RoundTrip

namespace Yfs.Wire

open Yfs.Run

/-! ## Single steps -/

inductive Prim where
  | byte (x : Byte)
  | bytes (s : List Byte)
  /-- `int saved_sz = _ind; _ind = sizeof(rpc_sz_t);` -/
  | toHeader
  /-- `_ind = saved_sz;` -/
  | back

/-- A `marshall` and the variable of the header functions. -/
structure Writer where
  m : Marshall
  savedSz : Nat

def writeStep (w : Writer) : Prim → Option Writer
  | .byte x => (w.m.rawbyte x).map fun m => { w with m := m }
  | .bytes s => (w.m.rawbytes s).map fun m => { w with m := m }
  | .toHeader => some ⟨{ w.m with ind := rpcSzSz }, w.m.ind⟩
  | .back => some { w with m := { w.m with ind := w.savedSz } }

def Prim.stored (m : Marshall) : Prim → List Nat
  | .byte _ => [m.ind]
  | .bytes s => List.range' m.ind s.length
  | _ => []

def Prim.ints (m : Marshall) : Prim → List Nat
  | .byte _ => if m.capa ≤ m.ind then [m.capa * 2] else []
  | .bytes s =>
    (m.ind + s.length) ::
      if m.capa < m.ind + s.length then
        [if s.length < m.capa then 2 * m.capa else m.capa + s.length]
      else []
  | _ => []

/-- The step comes to its end, all it computes is an `int`, and all it
writes is below the capacity it writes with. -/
def InCapacity (w : Writer) (p : Prim) : Prop :=
  (∀ x ∈ p.ints w.m, x < intMax) ∧
    ∃ w', writeStep w p = some w' ∧ ∀ i ∈ p.stored w.m, i < w'.m.capa

def Prim.Stores : Prim → Prop
  | .byte _ => True
  | .bytes _ => True
  | _ => False

/-! ## Operators as lists of steps -/

structure Expands (p : Put) (l : List Prim) : Prop where
  run : ∀ w, exec writeStep w l = (p w.m).map fun m => { w with m := m }
  stores : ∀ q ∈ l, q.Stores

namespace Expands

theorem nil : Expands some [] := ⟨fun _ => rfl, by simp⟩

theorem andThen {p q : Put} {l l' : List Prim} (hp : Expands p l) (hq : Expands q l') :
    Expands (Put.andThen p q) (l ++ l') := by
  constructor
  · intro w
    rw [exec_append, hp.run, Put.andThen]
    cases p w.m with
    | none => rfl
    | some m => exact hq.run { w with m := m }
  · intro x hx
    exact (List.mem_append.mp hx).elim (hp.stores x) (hq.stores x)

theorem byte (x : Byte) : Expands (Marshall.rawbyte x) [.byte x] := by
  refine ⟨fun w => ?_, by simp [Prim.Stores]⟩
  simp [exec, writeStep]

theorem bytes (s : List Byte) : Expands (Marshall.rawbytes s) [.bytes s] := by
  refine ⟨fun w => ?_, by simp [Prim.Stores]⟩
  simp [exec, writeStep]

theorem each (l : List Byte) : Expands (putEach l) (l.map .byte) := by
  induction l with
  | nil => exact nil
  | cons x l ih => exact (byte x).andThen ih

theorem list {α : Type} {put : α → Put} {prims : α → List Prim} (xs : List α)
    (h : ∀ x, Expands (put x) (prims x)) : Expands (putList put xs) (xs.flatMap prims) := by
  induction xs with
  | nil => exact nil
  | cons x xs ih => exact (h x).andThen ih

end Expands

def uintPrims (x : BitVec 32) : List Prim := (bytes32 x).map .byte

/-- The steps of `operator<<`. -/
def Ty.prims : (t : Ty) → t.carrier → List Prim
  | .bool, (x : Bool) => [.byte (if x then 1 else 0)]
  | .char, (x : BitVec 8) => [.byte x]
  | .uchar, (x : BitVec 8) => [.byte x]
  | .short, x => (bytes16 x).map .byte
  | .ushort, x => (bytes16 x).map .byte
  | .int, x => uintPrims x
  | .uint, x => uintPrims x
  | .ull, (x : BitVec 64) => uintPrims ((x >>> 32).setWidth 32) ++ uintPrims (x.setWidth 32)
  | .string, (s : List Byte) => uintPrims (BitVec.ofNat 32 s.length) ++ [.bytes s]
  | .vec t, (v : List t.carrier) => uintPrims (BitVec.ofNat 32 v.length) ++ v.flatMap t.prims
  | .map k v, (d : OrdMap k.carrier v.carrier) =>
    uintPrims (BitVec.ofNat 32 d.entries.length) ++
      d.entries.flatMap fun p => k.prims p.1 ++ v.prims p.2
  | .pair a b, x => a.prims x.1 ++ b.prims x.2

theorem expands_put (t : Ty) (x : t.carrier) : Expands (t.put x) (t.prims x) := by
  induction t with
  | bool | char | uchar => exact .byte _
  | short | ushort | int | uint => exact .each _
  | ull => exact (Expands.each _).andThen (.each _)
  | string => exact (Expands.each _).andThen (.bytes _)
  | vec t ih => exact (Expands.each _).andThen (.list _ ih)
  | map k v ihk ihv =>
    exact (Expands.each _).andThen (.list _ fun p => (ihk p.1).andThen (ihv p.2))
  | pair a b iha ihb => exact (iha x.1).andThen (ihb x.2)

/-! ## One step -/

variable {w w' : Writer}

theorem stores_byte {x : Byte} (hw : w.m.Ready) (h : writeStep w (.byte x) = some w') :
    InCapacity w (.byte x) ∧ w'.m.Ready := by
  obtain ⟨m, hm, rfl⟩ := Option.map_eq_some_iff.mp h
  have happ := (writes_rawbyte x).only w.m m hw hm
  have hind : m.ind = w.m.ind + 1 := happ.ind
  have hroom := happ.ready.room
  refine ⟨⟨?_, _, h, ?_⟩, happ.ready⟩
  · intro y hy
    simp only [Prim.ints] at hy
    split at hy
    · rename_i hfull
      obtain rfl := List.mem_singleton.mp hy
      rw [Marshall.rawbyte, if_pos hfull] at hm
      obtain ⟨m₀, h₀, -⟩ := Option.map_eq_some_iff.mp hm
      exact (realloc_some h₀).1
    · cases hy
  · intro i hi
    obtain rfl := List.mem_singleton.mp hi
    show w.m.ind < m.capa
    omega

theorem stores_bytes {s : List Byte} (hw : w.m.Ready) (h : writeStep w (.bytes s) = some w') :
    InCapacity w (.bytes s) ∧ w'.m.Ready := by
  obtain ⟨m, hm, rfl⟩ := Option.map_eq_some_iff.mp h
  have happ := (writes_rawbytes s).only w.m m hw hm
  have hind : m.ind = w.m.ind + s.length := happ.ind
  have hroom := happ.ready.room
  refine ⟨⟨?_, _, h, ?_⟩, happ.ready⟩
  · rw [Marshall.rawbytes] at hm
    split at hm
    · rename_i hint
      obtain ⟨m₀, h₀, -⟩ := Option.map_eq_some_iff.mp hm
      intro y hy
      rcases List.mem_cons.mp hy with rfl | hy
      · exact hint
      · split at hy
        · rename_i hfull
          obtain rfl := List.mem_singleton.mp hy
          rw [if_pos hfull] at h₀
          exact (realloc_some h₀).1
        · cases hy
    · cases hm
  · intro i hi
    have hlt := (List.mem_range'_1.mp hi).2
    show i < m.capa
    omega

/-- A run of stores that does not fail is in capacity all along. -/
theorem everyStep_stores {l : List Prim} (hl : ∀ q ∈ l, q.Stores) (hw : w.m.Ready)
    (h : exec writeStep w l = some w') : EveryStep writeStep InCapacity w l := by
  induction l generalizing w with
  | nil => exact trivial
  | cons q l ih =>
    obtain ⟨w₁, h₁, hrest⟩ := Option.bind_eq_some_iff.mp h
    have hstep : InCapacity w q ∧ w₁.m.Ready := by
      cases q with
      | byte x => exact stores_byte hw h₁
      | bytes s => exact stores_bytes hw h₁
      | toHeader => exact (hl .toHeader List.mem_cons_self).elim
      | back => exact (hl .back List.mem_cons_self).elim
    refine ⟨hstep.1, fun w₂ h₂ => ?_⟩
    cases h₁.symm.trans h₂
    exact ih (fun x hx => hl x (List.mem_cons_of_mem q hx)) hstep.2 hrest

/-! ## Operations -/

inductive WriteOp where
  | rawbyte (x : Byte)
  | rawbytes (s : List Byte)
  | put (x : Value)
  | header (h : Header)

def WriteOp.run : WriteOp → Put
  | .rawbyte x => Marshall.rawbyte x
  | .rawbytes s => Marshall.rawbytes s
  | .put x => x.1.put x.2
  | .header h => h.pack

/-- What is appended. -/
def WriteOp.bytes : WriteOp → List Byte
  | .rawbyte x => [x]
  | .rawbytes s => s
  | .put x => x.bytes
  | .header _ => []

def WriteOp.prims : WriteOp → List Prim
  | .rawbyte x => [.byte x]
  | .rawbytes s => [.bytes s]
  | .put x => x.1.prims x.2
  | .header h => .toHeader :: (h.bytes.map .byte ++ [.back])

/-- An operation comes to its end with a buffer that is ready for the next
one, and its steps were in capacity. -/
structure Done (op : WriteOp) (w : Writer) (w' : Writer) : Prop where
  run : op.run w.m = some w'.m
  prims : exec writeStep w op.prims = some w'
  ready : w'.m.Ready
  ind : w'.m.ind = w.m.ind + op.bytes.length
  inCapacity : EveryStep writeStep InCapacity w op.prims

theorem done_of_writes (op : WriteOp) (hp : Writes op.run op.bytes) (he : Expands op.run op.prims)
    (hw : w.m.Ready) (hsize : w.m.ind + op.bytes.length ≤ maxBuf) : ∃ w', Done op w w' := by
  obtain ⟨m, hm⟩ := hp.total w.m hw hsize
  have happ := hp.only w.m m hw hm
  have hrun : exec writeStep w op.prims = some { w with m := m } := by
    rw [he.run, hm]
    rfl
  exact ⟨_, hm, hrun, happ.ready, happ.ind, everyStep_stores he.stores hw hrun⟩

theorem putEach_append (a b : List Byte) :
    putEach (a ++ b) = Put.andThen (putEach a) (putEach b) := by
  induction a with
  | nil => rfl
  | cons x a ih =>
    funext m
    simp only [List.cons_append, putEach, Put.andThen, ih, Option.bind_assoc]
    rfl

theorem packAll_eq (fields : List (BitVec 32)) :
    packAll fields = putEach (fields.flatMap bytes32) := by
  induction fields with
  | nil => rfl
  | cons x fields ih =>
    rw [List.flatMap_cons, putEach_append, packAll, ih]
    rfl

/-- The header functions, with the write position at the header. -/
theorem Header.pack_eq (h : Header) (m : Marshall) :
    h.pack m = (putEach h.bytes { m with ind := rpcSzSz }).map fun m' =>
      { m' with ind := m.ind } := by
  cases h with
  | req h | reply h => exact congrArg (Option.map _) (congrFun (packAll_eq h.fields) _)

/-- The header area is there from the beginning, so nothing grows. -/
theorem done_header (h : Header) (hw : w.m.Ready) : ∃ w', Done (.header h) w w' := by
  have hfit : rpcSzSz + h.bytes.length ≤ w.m.capa :=
    h.bytes_length.trans ((show rpcHeaderSz ≤ defaultRpcSz by decide).trans hw.grown)
  have hat : Marshall.Ready { w.m with ind := rpcSzSz } :=
    ⟨(Nat.le_add_right _ _).trans hfit, hw.grown, hw.isInt⟩
  have hput := putEach_of_room (m := { w.m with ind := rpcSzSz }) hfit
  have hmid : exec writeStep ⟨{ w.m with ind := rpcSzSz }, w.m.ind⟩ (h.bytes.map .byte) =
      some ⟨⟨patch w.m.buf rpcSzSz h.bytes, w.m.capa, rpcSzSz + h.bytes.length⟩, w.m.ind⟩ := by
    rw [(Expands.each h.bytes).run]
    dsimp only
    rw [hput]
    rfl
  have hrun : exec writeStep w (WriteOp.header h).prims =
      some ⟨⟨patch w.m.buf rpcSzSz h.bytes, w.m.capa, w.m.ind⟩, w.m.ind⟩ := by
    show exec writeStep ⟨{ w.m with ind := rpcSzSz }, w.m.ind⟩ (h.bytes.map .byte ++ [.back]) = _
    rw [exec_append, hmid]
    rfl
  refine ⟨_, ?_, hrun, ⟨hw.room, hw.grown, hw.isInt⟩, rfl, ?_⟩
  · show h.pack w.m = _
    rw [h.pack_eq, hput]
    rfl
  · refine ⟨⟨by simp [Prim.ints], _, rfl, by simp [Prim.stored]⟩, fun w₁ h₁ => ?_⟩
    cases h₁
    refine (everyStep_stores (Expands.each h.bytes).stores hat hmid).append hmid ?_
    exact ⟨⟨by simp [Prim.ints], _, rfl, by simp [Prim.stored]⟩, fun _ _ => trivial⟩

theorem WriteOp.done (op : WriteOp) (hw : w.m.Ready) (hsize : w.m.ind + op.bytes.length ≤ maxBuf) :
    ∃ w', Done op w w' := by
  cases op with
  | rawbyte x => exact done_of_writes (.rawbyte x) (writes_rawbyte x) (.byte x) hw hsize
  | rawbytes s => exact done_of_writes (.rawbytes s) (writes_rawbytes s) (.bytes s) hw hsize
  | put x =>
    exact done_of_writes (.put x) (writes_put x.1 x.2) (expands_put x.1 x.2) hw hsize
  | header h => exact done_header h hw

/-! ## Sequences -/

/-- What is true after any operations, from any buffer that is ready. -/
theorem run_ops (ops : List WriteOp) (hw : w.m.Ready)
    (hsize : w.m.ind + (ops.flatMap WriteOp.bytes).length ≤ maxBuf) :
    ∃ w', putList WriteOp.run ops w.m = some w'.m ∧
      exec writeStep w (ops.flatMap WriteOp.prims) = some w' ∧ w'.m.Ready ∧
      w'.m.ind = w.m.ind + (ops.flatMap WriteOp.bytes).length ∧
      EveryStep writeStep InCapacity w (ops.flatMap WriteOp.prims) := by
  induction ops generalizing w with
  | nil => exact ⟨w, rfl, rfl, hw, rfl, trivial⟩
  | cons op ops ih =>
    rw [List.flatMap_cons, List.length_append] at hsize
    obtain ⟨w₁, h₁⟩ := op.done hw (by omega)
    obtain ⟨w₂, hrun, hprims, hready, hind, hcap⟩ := ih h₁.ready (by rw [h₁.ind]; omega)
    refine ⟨w₂, ?_, ?_, hready, ?_, ?_⟩
    · show (op.run w.m).bind _ = _
      rw [h₁.run]
      exact hrun
    · rw [List.flatMap_cons, exec_append, h₁.prims]
      exact hprims
    · rw [hind, h₁.ind, List.flatMap_cons, List.length_append, Nat.add_assoc]
    · exact h₁.inCapacity.append h₁.prims hcap

/-- **Marshall buffer capacity**: below `2³⁰` bytes in all, any operations on
a new `marshall` succeed; after each, the write position is between the end of
the header area and the capacity; and at every single step on the way, inside
the operations too, no `int` overflows and every byte is written below the
capacity of that moment. -/
theorem capacity_suffices (memory : Nat → Byte) (ops : List WriteOp)
    (hsize : rpcHeaderSz + (ops.flatMap WriteOp.bytes).length < 2 ^ 30) :
    (∀ pre post, ops = pre ++ post →
      ∃ w, putList WriteOp.run pre (Marshall.new memory) = some w.m ∧
        exec writeStep ⟨Marshall.new memory, 0⟩ (pre.flatMap WriteOp.prims) = some w ∧
        w.m.ind = rpcHeaderSz + (pre.flatMap WriteOp.bytes).length ∧
        rpcHeaderSz ≤ w.m.ind ∧ w.m.ind ≤ w.m.capa) ∧
    EveryStep writeStep InCapacity ⟨Marshall.new memory, 0⟩ (ops.flatMap WriteOp.prims) := by
  have hnew := Marshall.ready_new memory
  constructor
  · rintro pre post rfl
    rw [List.flatMap_append, List.length_append] at hsize
    have hpre : rpcHeaderSz + (pre.flatMap WriteOp.bytes).length ≤ maxBuf := by
      simp only [maxBuf]
      omega
    obtain ⟨w, hrun, hprims, hready, hind, -⟩ := run_ops pre (w := ⟨_, 0⟩) hnew hpre
    have hfrom : w.m.ind = rpcHeaderSz + (pre.flatMap WriteOp.bytes).length := hind
    exact ⟨w, hrun, hprims, hfrom, hfrom ▸ Nat.le_add_right _ _, hready.room⟩
  · obtain ⟨-, -, -, -, -, hcap⟩ := run_ops ops (w := ⟨_, 0⟩) hnew hsize.le
    exact hcap

/-- A string larger than the buffer, a header, and a byte. -/
theorem capacity_suffices_grown :
    EveryStep writeStep InCapacity ⟨Marshall.new fun _ => 0, 0⟩
      ([.rawbytes (List.replicate 1100 7), .header (.reply ⟨1, 0⟩), .rawbyte 5].flatMap
        WriteOp.prims) := by
  refine (capacity_suffices (fun _ => 0)
    [.rawbytes (List.replicate 1100 7), .header (.reply ⟨1, 0⟩), .rawbyte 5] ?_).2
  simp only [List.flatMap_cons, List.flatMap_nil, List.length_append, WriteOp.bytes,
    List.length_replicate]
  decide

end Yfs.Wire
