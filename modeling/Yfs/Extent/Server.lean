/-
Yfs.Extent.Server — the extent server (extent_server.cc) and its wire
protocol (extent_protocol.h).

`file_block_` is a map from extent ids to attributes and contents. Each
handler is a function from the map to its reply and the next map;
`time(0)` is the argument `now`. `attr.size` is an `unsigned int`, so
the length of the buffer is stored modulo 2 ^ 32.

A reply is a status together with the value of the out-parameter. The
out-parameter of a call whose status is negative is not written by
`rpcc::call_m`; `none` stands for that. On NOENT the handlers send back
the default-constructed `std::string`; the default-constructed `attr` of
`getattr` has unspecified contents, `none` again.
-/
import Yfs.Lib.Run

namespace Yfs.Extent

abbrev Eid := Nat

abbrev Bytes := List UInt8

/-- `extent_protocol::xxstatus`, and the negative `rpc_const` codes an
RPC can return in its place. -/
inductive Status where
  | OK
  | RPCERR
  | NOENT
  | IOERR
  | failure (code : Int)
  deriving DecidableEq, Repr

structure Attr where
  atime : Nat
  mtime : Nat
  ctime : Nat
  size : Nat
  deriving DecidableEq, Repr

abbrev FileContent := Attr × Bytes

abbrev FileBlock := Eid → Option FileContent

namespace Server

/-- `extent_server::put`: creates the extent or overwrites it. Only a
new extent gets its access time set. -/
def put (fb : FileBlock) (now : Nat) (id : Eid) (buf : Bytes) : Status × FileBlock :=
  let attr : Attr := match fb id with
    | none => { atime := now, mtime := now, ctime := now, size := 0 }
    | some (a, _) => { a with mtime := now, ctime := now }
  (.OK, Function.update fb id (some ({ attr with size := buf.length % 2 ^ 32 }, buf)))

def get (fb : FileBlock) (now : Nat) (id : Eid) : (Status × Option Bytes) × FileBlock :=
  match fb id with
  | none => ((.NOENT, some []), fb)
  | some (a, d) => ((.OK, some d), Function.update fb id (some ({ a with atime := now }, d)))

def getattr (fb : FileBlock) (id : Eid) : (Status × Option Attr) × FileBlock :=
  match fb id with
  | none => ((.NOENT, none), fb)
  | some (a, _) => ((.OK, some a), fb)

def remove (fb : FileBlock) (id : Eid) : Status × FileBlock :=
  match fb id with
  | none => (.NOENT, fb)
  | some _ => (.OK, Function.update fb id none)

/-! The four handlers only touch the extent they name, and `get` and
`getattr` keep its contents. -/

def contents (fb : FileBlock) (id : Eid) : Option Bytes := (fb id).map Prod.snd

@[simp] theorem contents_put (fb : FileBlock) (now : Nat) (id id' : Eid) (buf : Bytes) :
    contents (put fb now id buf).2 id'
      = if id' = id then some buf else contents fb id' := by
  by_cases h : id' = id
  · subst h; simp [contents, put]
  · simp [contents, put, h]

@[simp] theorem contents_get (fb : FileBlock) (now : Nat) (id id' : Eid) :
    contents (get fb now id).2 id' = contents fb id' := by
  unfold contents get
  cases h : fb id with
  | none => rfl
  | some c =>
    by_cases h' : id' = id
    · subst h'; simp [h]
    · simp [h']

@[simp] theorem contents_getattr (fb : FileBlock) (id id' : Eid) :
    contents (getattr fb id).2 id' = contents fb id' := by
  unfold getattr
  cases fb id <;> rfl

@[simp] theorem contents_remove (fb : FileBlock) (id id' : Eid) :
    contents (remove fb id).2 id' = if id' = id then none else contents fb id' := by
  unfold contents remove
  cases h : fb id with
  | none =>
    by_cases h' : id' = id
    · subst h'; simp [h]
    · simp [h']
  | some c =>
    by_cases h' : id' = id
    · subst h'; simp
    · simp [h']

/-- A `get` of an existing extent succeeds with its contents. -/
theorem get_of_contents {fb : FileBlock} {id : Eid} {d : Bytes} (now : Nat)
    (h : contents fb id = some d) : (get fb now id).1 = (.OK, some d) := by
  unfold contents at h
  cases hfb : fb id with
  | none => simp [hfb] at h
  | some c =>
    obtain ⟨a, d'⟩ := c
    simp only [hfb, Option.map_some, Option.some.injEq] at h
    simp [get, hfb, h]

/-- A `getattr` of an existing extent succeeds. -/
theorem getattr_of_contents {fb : FileBlock} {id : Eid} {d : Bytes}
    (h : contents fb id = some d) : (getattr fb id).1.1 = .OK := by
  unfold contents at h
  cases hfb : fb id with
  | none => simp [hfb] at h
  | some c => simp [getattr, hfb]

end Server

end Yfs.Extent
