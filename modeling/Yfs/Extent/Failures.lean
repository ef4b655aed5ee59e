/-
Yfs.Extent.Failures — the caching extent client when the server does not
answer (extent_client_cache.cc: `get`, `getattr`, `flush`).

`Rpc.logged` writes down the status of every call that is made, so which
calls an operation issues is read off its own code. The marks of a cache
entry are assigned whatever these statuses are:

* a `flush` whose write-back failed clears `is_dirty` and `is_present`, and
  the data is gone (`lost_write`);
* a `get` that failed sets `is_present`, and the next one answers OK
  (`served_failure`).

`getattr` keeps nothing of the reply, so it is always harmless.
-/
import Yfs.Extent.Cache

namespace Yfs.Extent

variable {S : Type}

/-! ## The calls an operation makes -/

def Rpc.logged (rpc : Rpc S) : Rpc (S × List Status) where
  get s id := ((rpc.get s.1 id).1, (rpc.get s.1 id).2, s.2 ++ [(rpc.get s.1 id).1.1])
  getattr s id :=
    ((rpc.getattr s.1 id).1, (rpc.getattr s.1 id).2, s.2 ++ [(rpc.getattr s.1 id).1.1])
  put s id buf := ((rpc.put s.1 id buf).1, (rpc.put s.1 id buf).2, s.2 ++ [(rpc.put s.1 id buf).1])
  remove s id := ((rpc.remove s.1 id).1, (rpc.remove s.1 id).2, s.2 ++ [(rpc.remove s.1 id).1])

/-- The operations that ask the server; `put` never does, and `remove` has
nothing cached when it does. -/
inductive Fetch where
  | get (now : Nat) (buf : Bytes)
  | getattr (attr : Attr)
  | flush

namespace Cache

def fetch (rpc : Rpc S) (srv : S) (c : Cache) (eid : Eid) : Fetch → Cache × S
  | .get now buf => (c.get rpc now srv eid buf).2
  | .getattr attr => (c.getattr rpc srv eid attr).2
  | .flush => (c.flush rpc srv eid).2

def statuses (rpc : Rpc S) (srv : S) (c : Cache) (eid : Eid) (op : Fetch) : List Status :=
  (c.fetch rpc.logged (srv, []) eid op).2.2

/-- Contents, attributes and marks of every extent are the same; an extent
without an entry counts as the empty one that `operator[]` would insert. -/
def Intact (c c' : Cache) : Prop := ∀ eid, c'.entry eid = c.entry eid

/-- If some call of the operation failed, the cache is as before. -/
def Tolerates (rpc : Rpc S) (srv : S) (c : Cache) (eid : Eid) (op : Fetch) : Prop :=
  (∃ st ∈ c.statuses rpc srv eid op, st ≠ .OK) → Intact c (c.fetch rpc srv eid op).1

section
variable (rpc : Rpc S) (srv : S) (c : Cache) (eid : Eid)

theorem entry_set (d : FileData) (eid' : Eid) :
    (c.set eid d).entry eid' = if eid' = eid then d else c.entry eid' := by
  by_cases h : eid' = eid
  · subst h
    simp [entry]
  · simp [entry, set_of_ne h, h]

/-- Writing an entry back as it was changes nothing; any other entry does. -/
theorem intact_set_iff (d : FileData) : Intact c (c.set eid d) ↔ d = c.entry eid := by
  constructor
  · intro h
    simpa [entry_set] using h eid
  · rintro rfl eid'
    rw [entry_set]
    split
    · rename_i h
      rw [h]
    · rfl

theorem statuses_get_hit (now : Nat) (buf : Bytes) (h : (c.entry eid).isPresent = true) :
    c.statuses rpc srv eid (.get now buf) = [] := by
  simp [statuses, fetch, get_hit, h]

theorem statuses_get_miss (now : Nat) (buf : Bytes) (h : (c.entry eid).isPresent = false) :
    c.statuses rpc srv eid (.get now buf) =
      [(rpc.get srv eid).1.1, (rpc.getattr (rpc.get srv eid).2 eid).1.1] := by
  simp [statuses, fetch, get_miss, h, Rpc.logged]

theorem statuses_flush_dirty {d : FileData} (h : c eid = some d) (hd : d.isDirty = true) :
    c.statuses rpc srv eid .flush = [(rpc.put srv eid d.content).1] := by
  simp [statuses, fetch, flush_dirty _ h hd, Rpc.logged]

theorem statuses_flush_clean {d : FileData} (h : c eid = some d) (hd : d.isDirty = false) :
    c.statuses rpc srv eid .flush = [] := by
  simp [statuses, fetch, flush_clean _ h hd]

/-! ## One operation at a time -/

theorem tolerates_getattr (attr : Attr) : c.Tolerates rpc srv eid (.getattr attr) := by
  intro _
  have hsame : (c.fetch rpc srv eid (.getattr attr)).1 = c.set eid (c.entry eid) := by
    simp only [fetch, getattr]
    split <;> rfl
  rw [hsame, intact_set_iff]

theorem tolerates_get_iff (now : Nat) (buf : Bytes) :
    c.Tolerates rpc srv eid (.get now buf) ↔ (c.entry eid).isPresent = true ∨
      ((rpc.get srv eid).1.1 = .OK ∧ (rpc.getattr (rpc.get srv eid).2 eid).1.1 = .OK) := by
  cases hp : (c.entry eid).isPresent with
  | true => simp [Tolerates, statuses_get_hit rpc srv c eid now buf hp]
  | false =>
    -- the entry is marked present now, and it was not
    have hspoilt : ¬ Intact c (c.fetch rpc srv eid (.get now buf)).1 := by
      simp only [fetch, get_miss now srv buf hp, intact_set_iff]
      intro h
      have hpresent := congrArg FileData.isPresent h
      rw [hp] at hpresent
      cases hpresent
    simp only [Tolerates, statuses_get_miss rpc srv c eid now buf hp, hspoilt]
    simp

theorem tolerates_flush_iff :
    c.Tolerates rpc srv eid .flush ↔
      ∀ d, c eid = some d → d.isDirty = true → (rpc.put srv eid d.content).1 = .OK := by
  cases he : c eid with
  | none =>
    have hsame : (c.fetch rpc srv eid .flush).1 = c := by simp [fetch, flush_absent srv he]
    have hintact : Intact c c := fun _ => rfl
    simp [Tolerates, hsame, hintact]
  | some d =>
    cases hd : d.isDirty with
    | false => simp [Tolerates, statuses_flush_clean rpc srv c eid he hd, hd]
    | true =>
      have hspoilt : ¬ Intact c (c.fetch rpc srv eid .flush).1 := by
        simp only [fetch, flush_dirty srv he hd, intact_set_iff, entry, he, Option.getD_some]
        intro h
        have hdirty := congrArg FileData.isDirty h
        rw [hd] at hdirty
        cases hdirty
      simp [Tolerates, statuses_flush_dirty rpc srv c eid he hd, hspoilt, hd]

end

/-- The calls that go wrong are none of these: a fetch of an extent that is
not present, and a write-back. -/
def Harmless (rpc : Rpc S) (srv : S) (c : Cache) (eid : Eid) : Fetch → Prop
  | .get _ _ => (c.entry eid).isPresent = true ∨
      ((rpc.get srv eid).1.1 = .OK ∧ (rpc.getattr (rpc.get srv eid).2 eid).1.1 = .OK)
  | .getattr _ => True
  | .flush => ∀ d, c eid = some d → d.isDirty = true → (rpc.put srv eid d.content).1 = .OK

/-- **When failed calls leave the cache intact**, for every cache, extent,
operation and every server. -/
theorem failed_calls_keep_cache_iff (rpc : Rpc S) (srv : S) (c : Cache) (eid : Eid) (op : Fetch) :
    c.Tolerates rpc srv eid op ↔ c.Harmless rpc srv eid op := by
  cases op with
  | get now buf => exact tolerates_get_iff rpc srv c eid now buf
  | getattr attr => exact iff_of_true (tolerates_getattr rpc srv c eid attr) trivial
  | flush => exact tolerates_flush_iff rpc srv c eid

end Cache

def Rpc.down : Rpc S where
  get s _ := ((.failure (-1), none), s)
  getattr s _ := ((.failure (-1), none), s)
  put s _ _ := (.failure (-1), s)
  remove s _ := (.failure (-1), s)

def oneDirty : Cache := (Cache.put 0 (fun _ => none) 2 [7]).2

/-- **Failed calls do not leave the cache intact**: the dirty byte is not
marked dirty any more, and a fetch that failed is marked present. -/
theorem failed_calls_spoil_cache :
    ¬ oneDirty.Tolerates Rpc.down () 2 .flush ∧
      ¬ oneDirty.Tolerates Rpc.down () 3 (.get 0 []) := by
  rw [Cache.tolerates_flush_iff, Cache.tolerates_get_iff]
  constructor
  · intro h
    cases h _ rfl rfl
  · rintro (hpresent | ⟨hok, -⟩)
    · cases hpresent
    · cases hok

/-! ## What a later call sees -/

namespace Cache

variable (rpc : Rpc S) (srv : S) (c : Cache) (eid : Eid)

/-- **A failed write-back loses the data**: whatever the status, the next
`get` asks the server. -/
theorem lost_write {d : FileData} (h : c eid = some d) (now : Nat) (buf : Bytes) :
    (((c.flush rpc srv eid).2.1).get rpc now (c.flush rpc srv eid).2.2 eid buf).1.2 =
      (rpc.get (c.flush rpc srv eid).2.2 eid).1.2.getD buf := by
  have hentry : ((c.flush rpc srv eid).2.1).entry eid =
      { d with isDirty := false, isPresent := false } := by
    cases hd : d.isDirty with
    | false => simp [flush_clean srv h hd, entry]
    | true => simp [flush_dirty srv h hd, entry]
  rw [get_miss now _ buf (by rw [hentry])]

/-- **A failed fetch is served as contents**: the second `get` is answered
OK from the cache, with what was in the buffer of the first. -/
theorem served_failure (hp : (c.entry eid).isPresent = false)
    (hfail : (rpc.get srv eid).1.2 = none) (now now' : Nat) (buf buf' : Bytes) :
    ((c.get rpc now srv eid buf).2.1.get rpc now' (c.get rpc now srv eid buf).2.2 eid buf').1 =
      (.OK, buf) := by
  have hentry : ((c.get rpc now srv eid buf).2.1.entry eid).isPresent = true ∧
      ((c.get rpc now srv eid buf).2.1.entry eid).content = buf := by
    simp [get_miss now srv buf hp, entry, hfail]
  rw [get_hit now' _ buf' hentry.1, hentry.2]

end Cache

end Yfs.Extent
