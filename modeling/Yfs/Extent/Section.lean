/-
Yfs.Extent.Section — what one client does to one extent while it holds its
lock: a sequence of calls and then the `flush` that gives the lock away.

Three things run the same calls:

* `storedCall`, the abstract model: an extent is there with its size and
  contents, or it is not;
* the uncached client (extent_client.cc), which passes every call on
  (`uncached_call`: it does what `storedCall` does);
* the caching client, which answers from its cache and writes back on
  `flush`.

The cache has three ways to say that an extent is not there: no entry, an
entry that is not present, and an entry that is present and empty, left
behind by a `get` that failed. `Entry` names what an entry stands for, and
`next` says what a call makes of it, or that the cache answers wrongly.
`cached_section_iff` is the result: the cache behaves like the uncached
client exactly when no call goes wrong and the `flush` finds an entry or
has nothing to lose.
-/
import Yfs.Extent.Cache

namespace Yfs.Extent

open Function

/-! ## Calls and results -/

inductive Call where
  | get
  | getattr
  | put (buf : Bytes)
  | remove
  deriving DecidableEq, Repr

/-- What the caller sees: a status with the contents or with the size. The
attributes behind a failed `getattr` are not specified. -/
inductive Result where
  | contents (status : Status) (buf : Bytes)
  | size (status : Status) (size : Option Nat)
  | status (status : Status)
  deriving DecidableEq, Repr

def Result.ofAttr (status : Status) (attr : Attr) : Result :=
  .size status (if status = .OK then some attr.size else none)

def runCalls {S : Type} (call : Nat → S → Call → Result × S) (clock : Nat → Nat) :
    S → List Call → List Result × S
  | s, [] => ([], s)
  | s, c :: cs =>
    let r := call (clock cs.length) s c
    let rest := runCalls call clock r.2 cs
    (r.1 :: rest.1, rest.2)

/-! ## The abstract extent -/

abbrev Stored := Option (Nat × Bytes)

def storedCall (v : Stored) : Call → Result × Stored
  | .get => (match v with
    | none => .contents .NOENT []
    | some x => .contents .OK x.2, v)
  | .getattr => (match v with
    | none => .size .NOENT none
    | some x => .size .OK (some x.1), v)
  | .put buf => (.status .OK, some (buf.length % 2 ^ 32, buf))
  | .remove => (.status (if v.isSome then .OK else .NOENT), none)

def Server.stored (fb : FileBlock) (id : Eid) : Stored := (fb id).map fun c => (c.1.size, c.2)

namespace Server

variable (fb : FileBlock) (now : Nat) (id : Eid)

theorem stored_put (buf : Bytes) :
    stored (put fb now id buf).2 =
      update (stored fb) id (some (buf.length % 2 ^ 32, buf)) := by
  funext id'
  by_cases h : id' = id
  · subst h
    simp [stored, put]
  · simp [stored, put, h]

theorem stored_get : stored (get fb now id).2 = stored fb := by
  unfold get
  cases h : fb id with
  | none => rfl
  | some c =>
    funext id'
    by_cases h' : id' = id
    · subst h'
      simp [stored, h]
    · simp [stored, h']

theorem stored_getattr : stored (getattr fb id).2 = stored fb := by
  unfold getattr
  cases fb id <;> rfl

theorem stored_remove : stored (remove fb id).2 = update (stored fb) id none := by
  unfold remove
  funext id'
  cases h : fb id with
  | none =>
    by_cases h' : id' = id
    · subst h'
      simp [stored, h]
    · simp [h']
  | some c =>
    by_cases h' : id' = id
    · subst h'
      simp [stored]
    · simp [stored, h']

/-- The statuses and values of the handlers, read off the extent. -/
theorem get_eq : (get fb now id).1 =
    match stored fb id with
    | none => (.NOENT, some [])
    | some x => (.OK, some x.2) := by
  unfold get stored
  cases fb id <;> rfl

theorem getattr_eq_of_none (h : stored fb id = none) : (getattr fb id).1 = (.NOENT, none) := by
  unfold stored at h
  rw [Option.map_eq_none_iff] at h
  simp [getattr, h]

theorem getattr_eq_of_some {x : Nat × Bytes} (h : stored fb id = some x) :
    ∃ a : Attr, (getattr fb id).1 = (.OK, some a) ∧ a.size = x.1 := by
  obtain ⟨c, hc, rfl⟩ := Option.map_eq_some_iff.mp h
  exact ⟨c.1, by simp [getattr, hc], rfl⟩

theorem remove_eq : (remove fb id).1 = if (stored fb id).isSome then .OK else .NOENT := by
  unfold remove stored
  cases fb id <;> rfl

end Server

/-! ## The two clients -/

def uncached (eid : Eid) (now : Nat) (fb : FileBlock) : Call → Result × FileBlock
  | .get =>
    let r := (Rpc.direct now).get fb eid
    (.contents r.1.1 (r.1.2.getD []), r.2)
  | .getattr =>
    let r := (Rpc.direct now).getattr fb eid
    (.ofAttr r.1.1 (r.1.2.getD FileData.new.attr), r.2)
  | .put buf =>
    let r := (Rpc.direct now).put fb eid buf
    (.status r.1, r.2)
  | .remove =>
    let r := (Rpc.direct now).remove fb eid
    (.status r.1, r.2)

/-- `extent_client_cache`. -/
def cached (eid : Eid) (now : Nat) (s : Cache × FileBlock) : Call → Result × Cache × FileBlock
  | .get =>
    let r := s.1.get (Rpc.direct now) now s.2 eid []
    (.contents r.1.1 r.1.2, r.2)
  | .getattr =>
    let r := s.1.getattr (Rpc.direct now) s.2 eid FileData.new.attr
    (.ofAttr r.1.1 r.1.2, r.2)
  | .put buf =>
    let r := s.1.put now eid buf
    (.status r.1, r.2, s.2)
  | .remove =>
    let r := s.1.remove (Rpc.direct now) s.2 eid
    (.status r.1, r.2)

/-- The uncached client does to the extent what the abstract model does,
and nothing to the others. -/
theorem uncached_call (eid : Eid) (now : Nat) (fb : FileBlock) (call : Call) :
    (uncached eid now fb call).1 = (storedCall (Server.stored fb eid) call).1 ∧
    Server.stored (uncached eid now fb call).2 =
      update (Server.stored fb) eid (storedCall (Server.stored fb eid) call).2 := by
  cases call with
  | get =>
    constructor
    · simp only [uncached, Rpc.direct, Server.get_eq, storedCall]
      cases Server.stored fb eid <;> rfl
    · exact (Server.stored_get fb now eid).trans (update_eq_self _ _).symm
  | getattr =>
    constructor
    · cases h : Server.stored fb eid with
      | none =>
        simp [uncached, Rpc.direct, Server.getattr_eq_of_none fb eid h, Result.ofAttr, storedCall]
      | some x =>
        obtain ⟨a, ha, hsize⟩ := Server.getattr_eq_of_some fb eid h
        simp [uncached, Rpc.direct, ha, Result.ofAttr, storedCall, hsize]
    · exact (Server.stored_getattr fb eid).trans (update_eq_self _ _).symm
  | put buf => exact ⟨rfl, Server.stored_put fb now eid buf⟩
  | remove =>
    refine ⟨?_, Server.stored_remove fb eid⟩
    simp only [uncached, Rpc.direct, Server.remove_eq, storedCall]

/-! ## What an entry of the cache stands for -/

/-- The state of the cache for the extent: no entry and nothing done yet; an
entry that is not present; one left by a `get` that found nothing; one with
the contents; none, because the extent has been removed. -/
inductive Entry where
  | fresh
  | unread
  | missing
  | holding
  | erased
  deriving DecidableEq, Repr

/-- What a call makes of the entry, and of whether the server has the
extent; `none` when the answer of the cache is wrong. -/
def next (onServer : Bool) : Entry → Call → Option (Bool × Entry)
  | _, .put _ => some (onServer, .holding)
  | .fresh, .get => some (onServer, if onServer then .holding else .missing)
  | .fresh, .getattr => some (onServer, .unread)
  | .fresh, .remove => some (false, .fresh)
  | .unread, .get => some (onServer, if onServer then .holding else .missing)
  | .unread, .getattr => some (onServer, .unread)
  -- only the entry is erased, and the status is OK
  | .unread, .remove => if onServer then some (true, .erased) else none
  | .holding, .remove => some (onServer, if onServer then .erased else .fresh)
  | .holding, _ => some (onServer, .holding)
  -- the empty entry is taken for an empty extent
  | .missing, _ => none
  -- the server still has the extent
  | .erased, _ => none

/-- No call goes wrong, and at the end the extent is not at the server with
no entry for it in the cache. -/
def Faithful (onServer : Bool) (e : Entry) (calls : List Call) : Prop :=
  ∃ p, calls.foldlM (fun p call => next p.1 p.2 call) (onServer, e) = some p ∧ p ≠ (true, .fresh)

instance (onServer : Bool) (e : Entry) (calls : List Call) :
    Decidable (Faithful onServer e calls) :=
  match h : calls.foldlM (fun p call => next p.1 p.2 call) (onServer, e) with
  | none => isFalse (by rintro ⟨p, hp, _⟩; rw [h] at hp; cases hp)
  | some p =>
    if hp : p = (true, .fresh) then
      isFalse (by rintro ⟨q, hq, hne⟩; rw [h] at hq; exact hne (Option.some.inj hq ▸ hp))
    else isTrue ⟨p, h, hp⟩

/-- The cache `c` of a client for which the extent is `v`, while it is `x` at
the server. -/
def Stands (c : Cache) (eid : Eid) (x v : Stored) : Entry → Prop
  | .fresh => c eid = none ∧ v = x
  | .unread => v = x ∧ ∃ d, c eid = some d ∧ d.isPresent = false ∧ d.isDirty = false
  | .missing => v = none ∧ x = none ∧
    ∃ d, c eid = some d ∧ d.isPresent = true ∧ d.isDirty = false
  | .holding => ∃ d, c eid = some d ∧ d.isPresent = true ∧ v = some (d.attr.size, d.content) ∧
    (d.isDirty = true → d.attr.size = d.content.length % 2 ^ 32) ∧ (d.isDirty = false → x = v)
  | .erased => c eid = none ∧ v = none ∧ x.isSome = true

/-- After a call: the answer is that of the abstract extent and the cache
stands as `next` says, or the answer is another one. -/
def Answers (eid : Eid) (g : Eid → Stored) (v : Stored) (call : Call)
    (r : Result × Cache × FileBlock) : Option (Bool × Entry) → Prop
  | none => r.1 ≠ (storedCall v call).1
  | some (b, e) => r.1 = (storedCall v call).1 ∧ ∃ x : Stored, x.isSome = b ∧
    Server.stored r.2.2 = update g eid x ∧ Stands r.2.1 eid x (storedCall v call).2 e

section Calls

variable {eid : Eid} {g : Eid → Stored} {c : Cache} {fb : FileBlock} {x v : Stored} {e : Entry}

def Unread (c : Cache) (eid : Eid) : Prop :=
  (c.entry eid).isPresent = false ∧ (c.entry eid).isDirty = false

theorem unread_of_none (h : c eid = none) : Unread c eid := by
  simp [Unread, Cache.entry, h, FileData.new]

variable {d : FileData} {call : Call}

theorem unread_of_some (h : c eid = some d) (hp : d.isPresent = false) (hd : d.isDirty = false) :
    Unread c eid := by
  simp [Unread, Cache.entry, h, hp, hd]

/-- A `get` that goes to the server: its answer is right for what the server
has, and the entry is filled or left empty. -/
theorem cached_get_unread (now : Nat) (h : Unread c eid)
    (hx : Server.stored fb = update g eid x) :
    Answers eid g x .get (cached eid now (c, fb) .get)
      (some (x.isSome, if x.isSome then .holding else .missing)) := by
  obtain ⟨hp, hd⟩ := h
  have hat : Server.stored fb eid = x := by rw [hx, update_self]
  have hat' : Server.stored (Server.get fb now eid).2 eid = x := by rw [Server.stored_get, hat]
  have hafter : Server.stored (Server.getattr (Server.get fb now eid).2 eid).2 =
      update g eid x := by rw [Server.stored_getattr, Server.stored_get, hx]
  have hget := Server.get_eq fb now eid
  rw [hat] at hget
  unfold cached
  rw [Cache.get_miss now fb [] hp]
  cases x with
  | none =>
    have hattr := Server.getattr_eq_of_none _ _ hat'
    refine ⟨?_, none, rfl, hafter, rfl, rfl, _, Cache.set_self _, rfl, hd⟩
    simp [Rpc.direct, hget, hattr, storedCall]
  | some y =>
    obtain ⟨a, hattr, hsize⟩ := Server.getattr_eq_of_some _ _ hat'
    refine ⟨?_, some y, rfl, hafter, _, Cache.set_self _, rfl, ?_, ?_, fun _ => rfl⟩
    · simp [Rpc.direct, hget, hattr, storedCall]
    · simp [Rpc.direct, hget, hattr, storedCall, hsize]
    · intro hdirty
      cases hdirty.symm.trans hd

theorem cached_getattr_unread (now : Nat) (h : Unread c eid)
    (hx : Server.stored fb = update g eid x) :
    Answers eid g x .getattr (cached eid now (c, fb) .getattr) (some (x.isSome, .unread)) := by
  obtain ⟨hp, hd⟩ := h
  have hat : Server.stored fb eid = x := by rw [hx, update_self]
  have hafter : Server.stored (Server.getattr fb eid).2 = update g eid x := by
    rw [Server.stored_getattr, hx]
  unfold cached Cache.getattr
  simp only [hp, Bool.false_eq_true, if_false, Rpc.direct]
  refine ⟨?_, x, rfl, hafter, rfl, _, Cache.set_self _, hp, hd⟩
  cases x with
  | none => simp [Server.getattr_eq_of_none fb eid hat, Result.ofAttr, storedCall]
  | some y =>
    obtain ⟨a, hattr, hsize⟩ := Server.getattr_eq_of_some fb eid hat
    simp [hattr, Result.ofAttr, storedCall, hsize]

/-- A `remove` with an entry in the cache erases the entry. -/
theorem cached_remove_some (now : Nat) (h : c eid = some d) :
    cached eid now (c, fb) .remove = (.status .OK, update c eid none, fb) := by
  simp [cached, Cache.remove, h]

def Call.reads : Call → Bool
  | .get => true
  | .getattr => true
  | _ => false

theorem next_reads (hread : call.reads = true) (b : Bool) :
    next b .unread call = next b .fresh call ∧ next b .holding call = some (b, .holding) ∧
      next b .missing call = none ∧ next b .erased call = none := by
  cases call with
  | get | getattr => exact ⟨rfl, rfl, rfl, rfl⟩
  | put buf => cases hread
  | remove => cases hread

/-- A read changes nothing, and tells an extent from none. -/
theorem storedCall_reads (hread : call.reads = true) :
    (∀ v, (storedCall v call).2 = v) ∧
      ∀ y, (storedCall (some y) call).1 ≠ (storedCall none call).1 := by
  cases call with
  | get | getattr => simp [storedCall]
  | put buf => cases hread
  | remove => cases hread

/-- A read that the cache answers: from the entry, which keeps everything
but its access time. -/
theorem cached_hit (fb : FileBlock) (now : Nat) (hread : call.reads = true) (h : c eid = some d)
    (hp : d.isPresent = true) :
    ∃ a, cached eid now (c, fb) call = ((storedCall (some (d.attr.size, d.content)) call).1,
      c.set eid { d with attr := { d.attr with atime := a } }, fb) := by
  have hent := Cache.entry_of_some h
  cases call with
  | get =>
    have hget : c.get (Rpc.direct now) now fb eid [] = _ :=
      Cache.get_hit now fb [] (by rw [hent]; exact hp)
    exact ⟨now, by simp only [cached, hget, hent, storedCall]⟩
  | getattr =>
    refine ⟨d.attr.atime, ?_⟩
    simp only [cached, Cache.getattr, hent, if_pos hp, Result.ofAttr, storedCall]
    rfl
  | put buf => cases hread
  | remove => cases hread

/-- A read that goes to the server. -/
theorem cached_unread (now : Nat) (hread : call.reads = true) (h : Unread c eid)
    (hx : Server.stored fb = update g eid x) :
    ∃ p, next x.isSome .fresh call = some p ∧
      Answers eid g x call (cached eid now (c, fb) call) (some p) := by
  cases call with
  | get => exact ⟨_, rfl, cached_get_unread now h hx⟩
  | getattr => exact ⟨_, rfl, cached_getattr_unread now h hx⟩
  | put buf => cases hread
  | remove => cases hread

variable (hx : Server.stored fb = update g eid x)

include hx

theorem answers_read (now : Nat) (hread : call.reads = true) (h : Stands c eid x v e) :
    Answers eid g v call (cached eid now (c, fb) call) (next x.isSome e call) := by
  cases e with
  | fresh =>
    obtain ⟨hc, rfl⟩ := h
    obtain ⟨p, hnext, hanswers⟩ := cached_unread now hread (unread_of_none hc) hx
    rw [hnext]
    exact hanswers
  | unread =>
    obtain ⟨rfl, d, hc, hp, hd⟩ := h
    obtain ⟨p, hnext, hanswers⟩ := cached_unread now hread (unread_of_some hc hp hd) hx
    rw [(next_reads hread _).1, hnext]
    exact hanswers
  | missing =>
    obtain ⟨rfl, _, d, hc, hp, _⟩ := h
    obtain ⟨a, hhit⟩ := cached_hit fb now hread hc hp
    rw [(next_reads hread _).2.2.1, hhit]
    exact (storedCall_reads hread).2 _
  | holding =>
    obtain ⟨d, hc, hp, rfl, hsize, hclean⟩ := h
    obtain ⟨a, hhit⟩ := cached_hit fb now hread hc hp
    rw [(next_reads hread _).2.1, hhit]
    refine ⟨rfl, x, rfl, hx, ?_⟩
    rw [(storedCall_reads hread).1]
    exact ⟨_, Cache.set_self _, hp, rfl, hsize, hclean⟩
  | erased =>
    obtain ⟨hc, rfl, hsome⟩ := h
    obtain ⟨y, rfl⟩ := Option.isSome_iff_exists.mp hsome
    obtain ⟨p, -, hanswer, -⟩ := cached_unread now hread (unread_of_none hc) hx
    rw [(next_reads hread _).2.2.2]
    show _ ≠ _
    rw [hanswer]
    exact (storedCall_reads hread).2 y

theorem answers_put (now : Nat) (buf : Bytes) :
    Answers eid g v (.put buf) (cached eid now (c, fb) (.put buf)) (some (x.isSome, .holding)) :=
  ⟨rfl, x, rfl, hx, _, Cache.set_self _, rfl, rfl, fun _ => rfl, nofun⟩

theorem answers_remove (now : Nat) (h : Stands c eid x v e) :
    Answers eid g v .remove (cached eid now (c, fb) .remove) (next x.isSome e .remove) := by
  have hat : Server.stored fb eid = x := by rw [hx, update_self]
  -- without an entry the call goes to the server
  have hrpc : c eid = none → cached eid now (c, fb) .remove =
      (.status (if x.isSome then .OK else .NOENT), c, (Server.remove fb eid).2) := by
    intro hc
    simp [cached, Cache.remove, hc, Rpc.direct, Server.remove_eq, hat]
  cases e with
  | fresh =>
    obtain ⟨hc, rfl⟩ := h
    rw [hrpc hc]
    refine ⟨rfl, none, rfl, ?_, hc, rfl⟩
    rw [Server.stored_remove, hx, update_idem]
  | unread =>
    obtain ⟨rfl, d, hc, _, _⟩ := h
    rw [cached_remove_some now hc]
    cases v with
    | none => simp [next, Answers, storedCall]
    | some y => exact ⟨rfl, some y, rfl, hx, update_self .., rfl, rfl⟩
  | missing =>
    obtain ⟨rfl, _, d, hc, _, _⟩ := h
    rw [cached_remove_some now hc]
    simp [next, Answers, storedCall]
  | holding =>
    obtain ⟨d, hc, _, rfl, _, _⟩ := h
    rw [cached_remove_some now hc]
    refine ⟨rfl, x, rfl, hx, ?_⟩
    cases x with
    | none => exact ⟨update_self .., rfl⟩
    | some y => exact ⟨update_self .., rfl, rfl⟩
  | erased =>
    obtain ⟨hc, rfl, hsome⟩ := h
    show _ ≠ _
    rw [hrpc hc, hsome]
    simp [storedCall]

/-- **One call.** -/
theorem answers_call (now : Nat) (h : Stands c eid x v e) (call : Call) :
    Answers eid g v call (cached eid now (c, fb) call) (next x.isSome e call) := by
  cases call with
  | get | getattr => exact answers_read hx now rfl h
  | put buf =>
    have hnext : next x.isSome e (.put buf) = some (x.isSome, .holding) := by cases e <;> rfl
    rw [hnext]
    exact answers_put hx now buf
  | remove => exact answers_remove hx now h

/-- `flush` leaves at the server what the client has, unless it takes an
extent that was never asked for to be a removed one. -/
theorem flush_stands (now : Nat) (h : Stands c eid x v e) :
    Server.stored (c.flush (Rpc.direct now) fb eid).2.2 = update g eid v ↔
      (x.isSome, e) ≠ (true, .fresh) := by
  -- what a `flush` without an entry, and one of a clean entry, leave
  have habsent : c eid = none → Server.stored (c.flush (Rpc.direct now) fb eid).2.2 =
      update g eid none := by
    intro hc
    rw [Cache.flush_absent fb hc]
    exact (Server.stored_remove fb eid).trans (by rw [hx, update_idem])
  have hclean : ∀ d, c eid = some d → d.isDirty = false →
      Server.stored (c.flush (Rpc.direct now) fb eid).2.2 = update g eid x := by
    intro d hc hd
    rw [Cache.flush_clean fb hc hd]
    exact hx
  cases e with
  | fresh =>
    obtain ⟨hc, rfl⟩ := h
    rw [habsent hc]
    cases v with
    | none => simp
    | some y =>
      simp only [Option.isSome_some, ne_eq, not_true_eq_false, iff_false]
      intro heq
      simpa using congrFun heq eid
  | unread =>
    obtain ⟨rfl, d, hc, _, hd⟩ := h
    simp [hclean d hc hd]
  | missing =>
    obtain ⟨rfl, rfl, d, hc, _, hd⟩ := h
    simp [hclean d hc hd]
  | holding =>
    obtain ⟨d, hc, _, rfl, hsize, hsame⟩ := h
    cases hd : d.isDirty with
    | false => simp [hclean d hc hd, hsame hd]
    | true =>
      have hput := Server.stored_put fb now eid d.content
      rw [hx, update_idem] at hput
      rw [Cache.flush_dirty fb hc hd, hsize hd]
      have hleft : Server.stored ((Rpc.direct now).put fb eid d.content).2 = _ := hput
      simp [hleft]
  | erased =>
    obtain ⟨hc, rfl, _⟩ := h
    simp [habsent hc]

end Calls

/-! ## A whole section -/

/-- The client sees the same results as an uncached client, and after the
`flush` the server has the same extents. -/
def SameAsUncached (c : Cache) (fb fd : FileBlock) (eid : Eid) (clock clock' : Nat → Nat)
    (now : Nat) (calls : List Call) : Prop :=
  (runCalls (cached eid) clock (c, fb) calls).1 = (runCalls (uncached eid) clock' fd calls).1 ∧
  Server.stored ((runCalls (cached eid) clock (c, fb) calls).2.1.flush (Rpc.direct now)
      (runCalls (cached eid) clock (c, fb) calls).2.2 eid).2.2 =
    Server.stored (runCalls (uncached eid) clock' fd calls).2

/-- **Run lemma**, from any two states of which the first stands for the
second. -/
theorem sameAsUncached_iff {eid : Eid} {g : Eid → Stored} (clock clock' : Nat → Nat) (now : Nat)
    (calls : List Call) {c : Cache} {fb fd : FileBlock} {x v : Stored} {e : Entry}
    (hx : Server.stored fb = update g eid x)
    (hv : Server.stored fd = update g eid v) (h : Stands c eid x v e) :
    SameAsUncached c fb fd eid clock clock' now calls ↔ Faithful x.isSome e calls := by
  induction calls generalizing c fb fd x v e with
  | nil =>
    simp only [SameAsUncached, runCalls, true_and, hv, flush_stands hx now h, Faithful,
      List.foldlM_nil]
    constructor
    · intro hne
      exact ⟨_, rfl, hne⟩
    · rintro ⟨p, hp, hne⟩
      exact Option.some.inj hp ▸ hne
  | cons call calls ih =>
    have hcall := answers_call hx (clock calls.length) h call
    obtain ⟨hres, hafter⟩ := uncached_call eid (clock' calls.length) fd call
    have hat : Server.stored fd eid = v := by rw [hv, update_self]
    rw [hat] at hres hafter
    rw [hv, update_idem] at hafter
    cases hnext : next x.isSome e call with
    | none =>
      -- the answers differ here, and so do the lists of answers
      rw [hnext] at hcall
      constructor
      · rintro ⟨hlist, _⟩
        exact absurd ((List.cons.inj hlist).1.trans hres) hcall
      · rintro ⟨p, hp, _⟩
        simp [hnext] at hp
    | some q =>
      obtain ⟨b, e'⟩ := q
      rw [hnext] at hcall
      obtain ⟨heq, x', rfl, hx', hstands⟩ := hcall
      have hrest := ih hx' hafter hstands
      have hfaithful : Faithful x.isSome e (call :: calls) ↔ Faithful x'.isSome e' calls := by
        simp [Faithful, hnext]
      rw [hfaithful, ← hrest]
      simp only [SameAsUncached, runCalls, List.cons.injEq, heq, hres, true_and]

/-- What a section finds in the cache: the entry of an earlier section, or
none. -/
def Flushed (c : Cache) (eid : Eid) : Prop :=
  ∀ d, c eid = some d → d.isPresent = false ∧ d.isDirty = false

/-- **The cache against the uncached client.** Whatever the server has and
whatever calls the client makes, the results and what is left at the server
after `flush` are those of the uncached client exactly when the calls are
`Faithful`. -/
theorem cached_section_iff {c : Cache} {eid : Eid} (hc : Flushed c eid) (fb : FileBlock)
    (clock clock' : Nat → Nat) (now : Nat) (calls : List Call) :
    SameAsUncached c fb fb eid clock clock' now calls ↔
      Faithful (fb eid).isSome (if (c eid).isSome then .unread else .fresh) calls := by
  have hself : Server.stored fb = update (Server.stored fb) eid (Server.stored fb eid) :=
    (update_eq_self _ _).symm
  have hsome : (Server.stored fb eid).isSome = (fb eid).isSome := by simp [Server.stored]
  rw [← hsome]
  cases hd : c eid with
  | none => exact sameAsUncached_iff clock clock' now calls hself hself (e := .fresh) ⟨hd, rfl⟩
  | some d =>
    exact sameAsUncached_iff clock clock' now calls hself hself (e := .unread)
      ⟨rfl, d, hd, hc d hd⟩

def oneExtent : FileBlock := fun id => if id = 7 then some (⟨0, 0, 0, 1⟩, [42]) else none

/-- Reading and rewriting an extent of the server, then removing it. -/
theorem cached_section_rewrite :
    Flushed (fun _ => none) 7 ∧
    SameAsUncached (fun _ => none) oneExtent oneExtent 7 id id 0
      [.getattr, .get, .put [1, 2], .get, .getattr, .remove] := by
  have hc : Flushed (fun _ => none) 7 := nofun
  exact ⟨hc, (cached_section_iff hc oneExtent id id 0 _).mpr (by decide)⟩

/-- **A removed extent comes back**: the server is not told of a `remove`
before the `flush`, and is asked again. -/
theorem removed_extent_read_again :
    ¬ ∀ (c : Cache) (fb : FileBlock) (eid : Eid) (clock clock' : Nat → Nat) (now : Nat)
      (calls : List Call), Flushed c eid → SameAsUncached c fb fb eid clock clock' now calls := by
  intro hall
  have hsame := hall (fun _ => none) oneExtent 7 id id 0 [.get, .remove, .get] nofun
  have hget : (runCalls (cached 7) id (fun _ => none, oneExtent) [.get, .remove, .get]).1 ≠
      (runCalls (uncached 7) id oneExtent [.get, .remove, .get]).1 := by decide
  exact hget hsame.1

end Yfs.Extent
