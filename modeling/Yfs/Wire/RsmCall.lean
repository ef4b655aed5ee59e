/-
Yfs.Wire.RsmCall — a call on the replicated state machine, from the
arguments of `rsm_client::call` to the method registered with `rsm::reg`
and back (rsm_client.h, rsm.h, `rsm::execute`).

Arguments and result are marshalled by two families of templates, one
member for each number of arguments. `call` writes all of them; the `fn`
that `reg` makes for five arguments reads four (`fnReads`), so what is left
fails its `VERIFY(args.okdone())`.

The reply is marshalled twice: the result into a string, the status and
that string into the reply.
-/
import Yfs.Wire.RoundTrip

namespace Yfs.Wire

open Yfs.Decode

/-! ## The server -/

abbrev Method (rt : Ty) := List Value → BitVec 32 × rt.carrier

/-- The variables that `fn` reads for arguments of these types, for each
overload of `reg`. -/
def fnReads : List Ty → Option (List Ty)
  | [a1] => some [a1]
  | [a1, a2] => some [a1, a2]
  | [a1, a2, a3] => some [a1, a2, a3]
  | [a1, a2, a3, a4] => some [a1, a2, a3, a4]
  -- `args >> a5` is missing
  | [a1, a2, a3, a4, _] => some [a1, a2, a3, a4]
  | _ => none

/-- What came of `fn`: the arguments the method was called with, its status
and the marshalled result. -/
structure Executed where
  called : List Value
  ret : BitVec 32
  rep : List Byte

def readArgs (ts : List Ty) (args : Unmarshall) : Option (List Value) :=
  (getAll ts args).bind fun r => if Unmarshall.okdone r.2 then some r.1 else none

def callMeth (memory : Nat → Byte) {rt : Ty} (meth : Method rt) (xs : List Value) :
    Option Executed :=
  (rt.put (meth xs).2 (Marshall.new memory)).map fun m => ⟨xs, (meth xs).1, m.str⟩

/-- `fn` of the handler that `reg` makes. A variable that is not read keeps
what `junk` has for its type. -/
def fn (memory : Nat → Byte) (junk : (t : Ty) → t.carrier) {rt : Ty} (ts : List Ty)
    (meth : Method rt) (args : Unmarshall) : Option Executed :=
  (fnReads ts).bind fun reads =>
    (readArgs reads args).bind fun xs =>
      callMeth memory meth (xs ++ (ts.drop reads.length).map fun t => ⟨t, junk t⟩)

def execute (memory : Nat → Byte) (h : Unmarshall → Option Executed) (req : List Byte) :
    Option (List Value × List Byte) :=
  (h (Unmarshall.ofContent memory req)).bind fun e =>
    (putAll [⟨.int, e.ret⟩, ⟨.string, e.rep⟩] (Marshall.new memory)).map fun m => (e.called, m.str)

/-! ## The client -/

/-- `rsm_client::call_m`, when `invoke` has brought this reply: what it
returns, and what it has put in `r`. -/
def callM (memory : Nat → Byte) (rt : Ty) (rep : List Byte) :
    Option (BitVec 32 × Option rt.carrier) :=
  (getInt (Unmarshall.ofContent memory rep)).bind fun i =>
    if i.1.slt 0 then some (i.1, none)
    else
      (getString i.2).bind fun res =>
        if Unmarshall.okdone res.2 then
          (rt.get (Unmarshall.ofContent memory res.1)).bind fun r =>
            if Unmarshall.okdone r.2 then some (i.1, some r.1) else none
        else none

/-- The outcome of a call: the arguments the method got, the status and, if
it is not negative, the result. -/
structure Outcome (rt : Ty) where
  called : List Value
  ret : BitVec 32
  result : Option rt.carrier

/-- `rsm_client::call` with these arguments on a method registered for their
types. -/
def call (memory : Nat → Byte) (junk : (t : Ty) → t.carrier) {rt : Ty} (meth : Method rt)
    (args : List Value) : Option (Outcome rt) :=
  (putAll args (Marshall.new memory)).bind fun m =>
    (execute memory (fn memory junk (args.map Sigma.fst) meth) m.str).bind fun e =>
      (callM memory rt e.2).map fun r => ⟨e.1, r.1, r.2⟩

def delivered {rt : Ty} (meth : Method rt) (args : List Value) : Outcome rt :=
  ⟨args, (meth args).1, if (meth args).1.slt 0 then none else some (meth args).2⟩

/-! ## Reading a content -/

/-- A reader finds its bytes at the start of a content. -/
theorem ofContent_run {N : Nat} {α : Type} {d : Get α} {bytes : List Byte} {v : α}
    (hd : Decodes N d bytes v) (memory : Nat → Byte) (post : List Byte)
    (hN : rpcHeaderSz + (bytes ++ post).length < N) :
    d (Unmarshall.ofContent memory (bytes ++ post)) =
      some (v, ⟨(List.range rpcHeaderSz).map memory ++ (bytes ++ post),
        rpcHeaderSz + bytes.length, true⟩) := by
  have harea : ((List.range rpcHeaderSz).map memory).length = rpcHeaderSz := by simp
  have hrun := hd.whole ((List.range rpcHeaderSz).map memory) post (by
    rw [List.length_append, harea]
    exact hN)
  rwa [harea] at hrun

theorem okdone_iff (memory : Nat → Byte) {s : List Byte} {n : Nat} :
    Unmarshall.okdone ⟨(List.range rpcHeaderSz).map memory ++ s, rpcHeaderSz + n, true⟩ = true ↔
      n = s.length := by
  simp [Unmarshall.okdone]

/-- Arguments are read back if all of them are read. -/
theorem readArgs_payload (memory : Nat → Byte) (xs ys : List Value)
    (hlen : rpcHeaderSz + (payload (xs ++ ys)).length < intMax) :
    readArgs (xs.map Sigma.fst) (Unmarshall.ofContent memory (payload (xs ++ ys))) =
      if ys = [] then some xs else none := by
  have hsplit : payload (xs ++ ys) = payload xs ++ payload ys := List.flatMap_append
  have hdec : Decodes intMax (getAll (xs.map Sigma.fst)) (payload xs) xs := by
    refine decodes_getAll le_rfl ?_
    rw [hsplit, List.length_append] at hlen
    omega
  rw [hsplit] at hlen ⊢
  rw [readArgs, ofContent_run hdec memory (payload ys) hlen, Option.bind_some]
  simp only [okdone_iff, List.length_append]
  cases ys with
  | nil => simp [payload]
  | cons y ys =>
    have hpos : 0 < (payload (y :: ys)).length := by
      have hy := bytes_pos y.1 y.2
      show 0 < (y.1.bytes y.2 ++ payload ys).length
      rw [List.length_append]
      omega
    rw [if_neg (by omega), if_neg (List.cons_ne_nil y ys)]

/-- `call_m` takes apart what `execute` put together. -/
theorem callM_payload (memory : Nat → Byte) {rt : Ty} (ret : BitVec 32) (r : rt.carrier)
    (hlen : rpcHeaderSz + (payload [⟨.int, ret⟩, ⟨.string, rt.bytes r⟩]).length < intMax) :
    callM memory rt (payload [⟨.int, ret⟩, ⟨.string, rt.bytes r⟩]) =
      some (ret, if ret.slt 0 then none else some r) := by
  have hsplit : payload [⟨.int, ret⟩, ⟨.string, rt.bytes r⟩] =
      bytes32 ret ++ bytesString (rt.bytes r) := by
    show bytes32 ret ++ (bytesString (rt.bytes r) ++ []) = _
    rw [List.append_nil]
  rw [hsplit] at hlen ⊢
  have hbody := length_le_bytesString (rt.bytes r)
  rw [List.length_append] at hlen
  have hret := ofContent_run (N := intMax) (decodes_uint ret) memory
    (bytesString (rt.bytes r)) (by rwa [List.length_append])
  rw [callM, show getInt _ = _ from hret, Option.bind_some]
  by_cases hneg : ret.slt 0 = true
  · simp only [hneg, if_true]
  · -- the string is behind the status, and the result is the string
    have harea : ((List.range rpcHeaderSz).map memory ++ bytes32 ret).length =
        rpcHeaderSz + (bytes32 ret).length := by simp
    have hstr := (decodes_string (N := intMax) le_rfl (s := rt.bytes r) (by omega)).whole
      ((List.range rpcHeaderSz).map memory ++ bytes32 ret) [] (by
        rw [List.length_append, harea, List.append_nil]
        omega)
    rw [List.append_nil, harea, List.append_assoc, Nat.add_assoc] at hstr
    have hres := ofContent_run (N := intMax) (decodes_get le_rfl rt r (by omega)) memory
      [] (by rw [List.append_nil]; omega)
    rw [List.append_nil] at hres
    have hok₁ := (okdone_iff memory (s := bytes32 ret ++ bytesString (rt.bytes r))).mpr
      List.length_append.symm
    have hok₂ := (okdone_iff memory (s := rt.bytes r)).mpr rfl
    simp only [hneg, hstr, hres, Option.bind_some, hok₁, hok₂, if_true]
    simp

/-! ## Which calls are delivered -/

/-- The write into a new buffer succeeds. -/
def Fits (memory : Nat → Byte) (p : Put) : Prop := (p (Marshall.new memory)).isSome = true

/-- The overloads of `reg`: all variables are read up to four, four of five,
and there are no others. -/
theorem fnReads_cases (ts : List Ty) :
    (1 ≤ ts.length ∧ ts.length ≤ 4 ∧ fnReads ts = some ts) ∨
    (∃ us t, us.length = 4 ∧ ts = us ++ [t] ∧ fnReads ts = some us) ∨
    (¬ (1 ≤ ts.length ∧ ts.length ≤ 4) ∧ fnReads ts = none) := by
  match ts with
  | [] => exact .inr (.inr ⟨by simp, rfl⟩)
  | [_] => exact .inl ⟨by simp, by simp, rfl⟩
  | [_, _] => exact .inl ⟨by simp, by simp, rfl⟩
  | [_, _, _] => exact .inl ⟨by simp, by simp, rfl⟩
  | [_, _, _, _] => exact .inl ⟨by simp, by simp, rfl⟩
  | [a1, a2, a3, a4, a5] => exact .inr (.inl ⟨[a1, a2, a3, a4], a5, rfl, rfl, rfl⟩)
  | _ :: _ :: _ :: _ :: _ :: _ :: _ => exact .inr (.inr ⟨by simp, rfl⟩)

/-- `fn` calls the method with the arguments, for up to four. -/
theorem fn_of_le_four (memory : Nat → Byte) (junk : (t : Ty) → t.carrier) {rt : Ty}
    (meth : Method rt) {args : List Value} (hreads : fnReads (args.map Sigma.fst) =
      some (args.map Sigma.fst)) (hlen : rpcHeaderSz + (payload args).length < intMax) :
    fn memory junk (args.map Sigma.fst) meth (Unmarshall.ofContent memory (payload args)) =
      callMeth memory meth args := by
  have hread := readArgs_payload memory args [] (by rwa [List.append_nil])
  rw [List.append_nil, if_pos rfl] at hread
  rw [fn, hreads, Option.bind_some, hread, Option.bind_some, List.drop_length]
  simp

/-- `fn` for five arguments leaves the last one unread. -/
theorem fn_of_five (memory : Nat → Byte) (junk : (t : Ty) → t.carrier) {rt : Ty}
    (meth : Method rt) {args : List Value} {us : List Ty} {t : Ty}
    (hts : args.map Sigma.fst = us ++ [t])
    (hreads : fnReads (args.map Sigma.fst) = some us)
    (hlen : rpcHeaderSz + (payload args).length < intMax) :
    fn memory junk (args.map Sigma.fst) meth (Unmarshall.ofContent memory (payload args)) =
      none := by
  obtain ⟨xs, ys, rfl, rfl, hys⟩ := List.map_eq_append_iff.mp hts
  have hne : ys ≠ [] := by
    rintro rfl
    cases hys
  have hread := readArgs_payload memory xs ys hlen
  rw [if_neg hne] at hread
  rw [fn, hreads, Option.bind_some, hread]
  rfl

/-- **Calls on the replicated state machine.** The method is called with the
caller's arguments, and the caller gets its status and its result, exactly
when there are one to four arguments and the request, the result and the
reply can be marshalled. -/
theorem rsm_call_delivers_iff (memory : Nat → Byte) (junk : (t : Ty) → t.carrier) {rt : Ty}
    (meth : Method rt) (args : List Value) :
    call memory junk meth args = some (delivered meth args) ↔
      (1 ≤ args.length ∧ args.length ≤ 4) ∧ Fits memory (putAll args) ∧
      Fits memory (rt.put (meth args).2) ∧
      Fits memory (putAll [⟨.int, (meth args).1⟩, ⟨.string, rt.bytes (meth args).2⟩]) := by
  unfold call Fits
  cases hreq : putAll args (Marshall.new memory) with
  | none => simp
  | some m =>
    obtain ⟨hstr, hlen⟩ := (writes_putAll args).str hreq
    rw [Option.bind_some, hstr, execute]
    rcases fnReads_cases (args.map Sigma.fst) with
      ⟨h1, h4, hreads⟩ | ⟨us, t, hus, hts, hreads⟩ | ⟨hno, hreads⟩
    · rw [fn_of_le_four memory junk meth hreads hlen, callMeth]
      rw [List.length_map] at h1 h4
      cases hres : rt.put (meth args).2 (Marshall.new memory) with
      | none => simp
      | some m₁ =>
        obtain ⟨hstr₁, -⟩ := (writes_put rt (meth args).2).str hres
        simp only [Option.map_some, Option.bind_some, hstr₁]
        cases hrep : putAll [⟨.int, (meth args).1⟩, ⟨.string, rt.bytes (meth args).2⟩]
            (Marshall.new memory) with
        | none => simp
        | some m₂ =>
          obtain ⟨hstr₂, hlen₂⟩ := (writes_putAll _).str hrep
          simp only [Option.map_some, Option.bind_some, hstr₂, callM_payload memory _ _ hlen₂]
          simp [delivered, h1, h4]
    · rw [fn_of_five memory junk meth hts hreads hlen]
      have hfive : args.length = 5 := by
        have hl := congrArg List.length hts
        rw [List.length_map, List.length_append, hus] at hl
        exact hl
      simp [hfive]
    · rw [fn, hreads]
      rw [List.length_map] at hno
      simp [hno]

def zeroed : (t : Ty) → t.carrier
  | .bool => false
  | .char => (0 : BitVec 8)
  | .uchar => (0 : BitVec 8)
  | .short => (0 : BitVec 16)
  | .ushort => (0 : BitVec 16)
  | .int => (0 : BitVec 32)
  | .uint => (0 : BitVec 32)
  | .ull => (0 : BitVec 64)
  | .string => ([] : List Byte)
  | .vec t => ([] : List t.carrier)
  | .map k v => (OrdMap.empty : OrdMap k.carrier v.carrier)
  | .pair a b => (zeroed a, zeroed b)

def fiveArgs : List Value := List.replicate 5 ⟨.bool, true⟩

/-- **Five arguments are not delivered**: the check of the handler fails. -/
theorem fifth_argument_unread :
    ¬ ∀ (memory : Nat → Byte) (junk : (t : Ty) → t.carrier) (rt : Ty) (meth : Method rt)
      (args : List Value), 1 ≤ args.length → args.length ≤ 5 →
      call memory junk meth args = some (delivered meth args) := by
  intro hall
  let meth : Method .bool := fun _ => (0, true)
  have hnone : (call (fun _ => 0) zeroed meth fiveArgs).isNone = true := by decide +kernel
  have hcall := hall (fun _ => 0) zeroed .bool meth fiveArgs (by decide) (by decide)
  rw [hcall] at hnone
  cases hnone

end Yfs.Wire
