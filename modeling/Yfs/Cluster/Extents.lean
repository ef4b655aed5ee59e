/-
Yfs.Cluster.Extents — one extent in a running yfs: its lock, the entries of the
caches, its contents at the server, and the flushes under way.

Whoever HAS the lock (`FlushSys.has`) is the only one with a copy that counts,
and between the copies and the server the latest contents are never lost
(`Copies`). `Slice` is all there is of one extent, `Slice.Ok` what holds of it
between two steps, and there is one lemma for each step: the protocol goes on,
the holder changes its entry, a flush goes on.

A flush without an entry in the cache would remove the extent at the server.
It does not come to that: a lock that is given back was held by an operation
that has made its `get`, so there is an entry (`Copies.left`).
-/
import Yfs.Cluster.System

namespace Yfs.Cluster

open Yfs.Lock Function
open Yfs.Fs (Inum Contents)
open Yfs.Extent (Bytes FileBlock FileData Cache)
open Yfs.Extent.Server (contents)

/-! ## The copies of one extent -/

/-- Who may have a copy that counts, who was left with the lock, the entries of
the caches, the contents at the server and the latest contents. -/
structure Copies (has left : UserId → Prop) (cache : UserId → Option FileData)
    (stored : Option Bytes) (latest : Bytes) : Prop where
  owned : ∀ c d, cache c = some d → d.isPresent = true → has c
  dirty : ∀ c d, cache c = some d → d.isDirty = true → d.isPresent = true
  present : ∀ c d, cache c = some d → d.isPresent = true → d.content = latest
  settled : (∀ c d, cache c = some d → d.isDirty = false) → stored = some latest
  left : ∀ c, left c → (cache c).isSome = true

namespace Copies

variable {has has' left left' : UserId → Prop} {cache : UserId → Option FileData}
  {stored stored' : Option Bytes} {latest latest' : Bytes} {c : UserId}

theorem lock (h : Copies has left cache stored latest) (hhas : ∀ c, has c → has' c)
    (hleft : ∀ c, left' c → left c ∨ (cache c).isSome = true) :
    Copies has' left' cache stored latest where
  owned c d hd hp := hhas c (h.owned c d hd hp)
  dirty := h.dirty
  present := h.present
  settled := h.settled
  left c hc := (hleft c hc).elim (h.left c) id

/-- The owner writes its entry; nobody else has anything that counts. -/
theorem set (h : Copies has left cache stored latest) (hc : has c) (honly : ∀ d, has d → d = c)
    {e : FileData} (hdirty : e.isDirty = true → e.isPresent = true)
    (hpresent : e.isPresent = true → e.content = latest')
    (hsettled : e.isDirty = false → stored' = some latest') :
    Copies has left (update cache c (some e)) stored' latest' where
  owned d f hd hp := by
    rcases eq_or_ne d c with rfl | hne
    · exact hc
    · rw [update_of_ne hne] at hd
      exact h.owned d f hd hp
  dirty d f hd hf := by
    rcases eq_or_ne d c with rfl | hne
    · obtain rfl : e = f := by simpa using hd
      exact hdirty hf
    · rw [update_of_ne hne] at hd
      exact h.dirty d f hd hf
  present d f hd hp := by
    rcases eq_or_ne d c with rfl | hne
    · obtain rfl : e = f := by simpa using hd
      exact hpresent hp
    · rw [update_of_ne hne] at hd
      exact absurd (honly d (h.owned d f hd hp)) hne
  settled hall := hsettled (hall c e (by simp))
  left d hd := by
    rcases eq_or_ne d c with rfl | hne
    · simp
    · rw [update_of_ne hne]
      exact h.left d hd

/-- While the owner is clean the server has the latest contents. -/
theorem upToDate (h : Copies has left cache stored latest) (honly : ∀ d, has d → d = c)
    (hclean : ∀ d, cache c = some d → d.isDirty = false) : stored = some latest := by
  refine h.settled fun d f hf => ?_
  by_contra hdirty
  have hf' : f.isDirty = true := by simpa using hdirty
  obtain rfl := honly d (h.owned d f hf (h.dirty d f hf hf'))
  exact hdirty (hclean f hf)

/-- The last act of an owner: the flush, after which nobody has a copy. -/
theorem flush (h : Copies has left cache stored latest) (honly : ∀ d, has d → d = c)
    (hgone : ∀ d, ¬ left' d) {e : FileData} (hpresent : e.isPresent = false)
    (hdirty : e.isDirty = false) :
    Copies has' left' (update cache c (some e)) (some latest) latest where
  owned d f hd hp := by
    rcases eq_or_ne d c with rfl | hne
    · obtain rfl : e = f := by simpa using hd
      simp [hpresent] at hp
    · rw [update_of_ne hne] at hd
      exact absurd (honly d (h.owned d f hd hp)) hne
  dirty d f hd hf := by
    rcases eq_or_ne d c with rfl | hne
    · obtain rfl : e = f := by simpa using hd
      simp [hdirty] at hf
    · rw [update_of_ne hne] at hd
      exact h.dirty d f hd hf
  present d f hd hp := by
    rcases eq_or_ne d c with rfl | hne
    · obtain rfl : e = f := by simpa using hd
      simp [hpresent] at hp
    · rw [update_of_ne hne] at hd
      exact h.present d f hd hp
  settled _ := rfl
  left d hd := absurd hd (hgone d)

/-- The server takes over the latest contents. -/
theorem store (h : Copies has left cache stored latest) :
    Copies has left cache (some latest) latest where
  owned := h.owned
  dirty := h.dirty
  present := h.present
  settled _ := rfl
  left := h.left

end Copies

/-! ## One extent -/

def bytesOf (c : Contents) : Bytes := (List.range c.length).map c.byte

@[simp] theorem bytesOf_ofBytes (data : Bytes) : bytesOf (Contents.ofBytes data) = data := by
  refine List.ext_getElem (by simp [bytesOf, Contents.ofBytes]) fun k h₁ h₂ => ?_
  simp [bytesOf, Contents.ofBytes, List.getElem?_eq_getElem h₂]

theorem ofBytes_injective : Function.Injective Contents.ofBytes :=
  Function.LeftInverse.injective bytesOf_ofBytes

structure Slice where
  lock : FlushSys
  cache : UserId → Option FileData
  stored : Option Bytes
  flushing : Nat → Flushing

def Sys.at (s : Sys) (ino : Inum) : Slice :=
  { lock := s.lock ino
    cache := fun c => s.cache c ino.toNat
    stored := contents s.srv ino.toNat
    flushing := s.flushing ino }

namespace Slice

def setLock (x : Slice) (l : FlushSys) : Slice := { x with lock := l }

def setEntry (x : Slice) (c : UserId) (d : FileData) : Slice :=
  { x with cache := update x.cache c (some d) }

def setFlushing (x : Slice) (stored : Option Bytes) (k : Nat) (f : Flushing) : Slice :=
  { x with stored := stored, flushing := update x.flushing k f }

end Slice

/-- A flush under way, with the entry of its client and the contents at the
server. There is an entry. -/
inductive FlushStage (stored : Option Bytes) : Flushing → Option FileData → Prop
  | start {entry : Option FileData} : FlushStage stored .start entry
  | putRpc {d : FileData} : d.isDirty = true → FlushStage stored (.putRpc d.content) (some d)
  | clear {d : FileData} : (d.isDirty = true → stored = some d.content) →
      FlushStage stored .clear (some d)

/-- `there` says that the extent is one of those that exist from the start. -/
structure Slice.Ok (x : Slice) (there : Prop) (value : Option Contents) : Prop where
  lock : x.lock.Ok
  left : ∀ c, x.lock.left c → there
  unstarted : ∀ k, x.lock.sys.relCalls k = .unused → x.flushing k = .start
  copies : there → ∃ latest, value = some (Contents.ofBytes latest) ∧
    Copies x.lock.has x.lock.left x.cache x.stored latest
  flushes : ∀ k c, x.lock.sys.relCalls k = .sent c → x.lock.flushed k = false →
    FlushStage x.stored (x.flushing k) (x.cache c)

namespace Slice

variable {x : Slice} {there : Prop} {value value' : Option Contents} {c : UserId} {t : ThreadId}
  {l : FlushSys} {k : Nat}

/-- The protocol goes on. Whoever leaves the lock behind has an entry. -/
theorem Ok.run (h : x.Ok there value) {e : Lock.Event} (hl : flushStep x.lock (.run e) = some l)
    (hget : ∀ c t, e = .release c t → x.lock.sys.pc c t = .holding →
      there ∧ (x.cache c).isSome = true) :
    (x.setLock l).Ok there value where
  lock := h.lock.step hl
  left c hc := by
    rcases h.lock.left_of_run hl hc with hleft | ⟨t, he, hold⟩
    · exact h.left c hleft
    · exact (hget c t he hold).1
  unstarted k hk := by
    refine h.unstarted k ?_
    by_contra hused
    exact lockStep_used hused (FlushSys.run_iff.mp hl).2.1 hk
  copies hthere := by
    obtain ⟨latest, hvalue, hcopies⟩ := h.copies hthere
    refine ⟨latest, hvalue, hcopies.lock (fun c hc => h.lock.has_run hl hc) fun c hc => ?_⟩
    rcases h.lock.left_of_run hl hc with hleft | ⟨t, he, hold⟩
    · exact .inl hleft
    · exact .inr (hget c t he hold).2
  flushes k c hk hnot := by
    have hflushed : l.flushed = x.lock.flushed := (FlushSys.run_iff.mp hl).2.2
    rcases h.lock.sent_of_run hl hk with hsent | hunused
    · exact h.flushes k c hsent (hflushed ▸ hnot)
    · show FlushStage x.stored (x.flushing k) (x.cache c)
      rw [h.unstarted k hunused]
      exact .start

theorem Ok.only_holder (h : x.Ok there value) (hold : x.lock.sys.pc c t = .holding) (d : UserId)
    (hd : x.lock.has d) : d = c :=
  h.lock.has_unique hd (FlushSys.has_of_holding hold)

/-- The holder changes its entry; `value'` is the value then. -/
theorem Ok.setEntry (h : x.Ok there value) (hold : x.lock.sys.pc c t = .holding) {d : FileData}
    (hcopies : there → ∃ latest, value' = some (Contents.ofBytes latest) ∧
      Copies x.lock.has x.lock.left (update x.cache c (some d)) x.stored latest) :
    (x.setEntry c d).Ok there value' where
  lock := h.lock
  left := h.left
  unstarted := h.unstarted
  copies := hcopies
  -- no release is on its way while the lock is held
  flushes k c' hk _ := by
    cases h.lock.inv.token.unique (.holder c t) (.release k c') hold hk

/-! ### The steps of a `get` -/

section Get

variable {latest : Bytes} {d : FileData}

theorem Ok.copiesOf (h : x.Ok there value) (hthere : there)
    (hvalue : value = some (Contents.ofBytes latest)) :
    Copies x.lock.has x.lock.left x.cache x.stored latest := by
  obtain ⟨latest', hvalue', hcopies⟩ := h.copies hthere
  have heq : Contents.ofBytes latest = Contents.ofBytes latest' :=
    Option.some.inj (hvalue.symm.trans hvalue')
  rwa [ofBytes_injective heq]

theorem entry_of_present (hp : ((x.cache c).getD FileData.new).isPresent = true) :
    x.cache c = some ((x.cache c).getD FileData.new) := by
  cases hd : x.cache c with
  | none => simp [hd, FileData.new] at hp
  | some d => rfl

/-- A hit returns the latest contents; only the access time changes. -/
theorem Ok.hit (h : x.Ok there value) (hthere : there)
    (hvalue : value = some (Contents.ofBytes latest)) (hold : x.lock.sys.pc c t = .holding)
    (hd : x.cache c = some d) (hp : d.isPresent = true) (attr : Extent.Attr) :
    d.content = latest ∧
      (x.setEntry c { d with attr := attr }).Ok there value := by
  have hcopies := h.copiesOf hthere hvalue
  have hcont : d.content = latest := hcopies.present c d hd hp
  refine ⟨hcont, h.setEntry hold fun _ => ⟨latest, hvalue, ?_⟩⟩
  refine hcopies.set (FlushSys.has_of_holding hold) (h.only_holder hold) (fun _ => hp)
    (fun _ => hcont) fun hclean => hcopies.upToDate (h.only_holder hold) fun f hf => ?_
  cases hd.symm.trans hf
  exact hclean

/-- What is not present is not dirty, so the server is up to date. -/
theorem Ok.stored_of_miss (h : x.Ok there value) (hthere : there)
    (hvalue : value = some (Contents.ofBytes latest)) (hold : x.lock.sys.pc c t = .holding)
    (hmiss : ((x.cache c).getD FileData.new).isPresent = false) : x.stored = some latest := by
  have hcopies := h.copiesOf hthere hvalue
  refine hcopies.upToDate (h.only_holder hold) fun d hd => ?_
  by_contra hdirty
  have hp := hcopies.dirty c d hd (by simpa using hdirty)
  simp [hd, hp] at hmiss

theorem dirty_of_miss (h : x.Ok there value) (hthere : there)
    (hmiss : ((x.cache c).getD FileData.new).isPresent = false) :
    ((x.cache c).getD FileData.new).isDirty = false := by
  obtain ⟨latest, _, hcopies⟩ := h.copies hthere
  cases hd : x.cache c with
  | none => rfl
  | some d =>
    by_contra hdirty
    have hp := hcopies.dirty c d hd (by simpa using hdirty)
    simp [hd, hp] at hmiss

/-- A miss leaves an entry behind, and later the latest contents in it. -/
theorem Ok.fill (h : x.Ok there value) (hthere : there)
    (hvalue : value = some (Contents.ofBytes latest)) (hold : x.lock.sys.pc c t = .holding)
    (hmiss : ((x.cache c).getD FileData.new).isPresent = false)
    (hdirty : d.isDirty = false) (hcont : d.isPresent = true → d.content = latest) :
    (x.setEntry c d).Ok there value := by
  have hstored := h.stored_of_miss hthere hvalue hold hmiss
  refine h.setEntry hold fun _ => ⟨latest, hvalue, ?_⟩
  exact (h.copiesOf hthere hvalue).set (FlushSys.has_of_holding hold) (h.only_holder hold)
    (fun hd => by simp [hdirty] at hd) hcont fun _ => hstored

/-- A `put` of the holder makes the latest contents. -/
theorem Ok.put (h : x.Ok there value) (hold : x.lock.sys.pc c t = .holding)
    (hd : d.isDirty = true) (hp : d.isPresent = true) :
    (x.setEntry c d).Ok there
      (some (Contents.ofBytes d.content)) := by
  refine h.setEntry hold fun hthere => ⟨d.content, rfl, ?_⟩
  obtain ⟨latest, _, hcopies⟩ := h.copies hthere
  exact hcopies.set (FlushSys.has_of_holding hold) (h.only_holder hold) (fun _ => hp)
    (fun _ => rfl) fun hclean => by simp [hd] at hclean

end Get

/-! ### The steps of a flush -/

section Flush

variable (h : x.Ok there value) (hk : x.lock.sys.relCalls k = .sent c)
  (hnot : x.lock.flushed k = false)

include hk hnot in
theorem left_of_sent : x.lock.left c := ⟨.release k c, hk, hnot, rfl⟩

include h hk in
/-- No other release call is on its way. -/
theorem Ok.only_call {j : Nat} {c' : UserId} (hj : x.lock.sys.relCalls j = .sent c') :
    j = k ∧ c' = c := by
  cases h.lock.inv.token.unique (.release j c') (.release k c) hj hk
  exact ⟨rfl, rfl⟩

include h hk hnot in
/-- A flush goes on at the client: only its own place changes, and `stored` if
it was a `put`. -/
theorem Ok.flushing {f : Flushing} {stored : Option Bytes}
    (hcopies : there → ∃ latest, value = some (Contents.ofBytes latest) ∧
      Copies x.lock.has x.lock.left x.cache stored latest)
    (hf : FlushStage stored f (x.cache c)) :
    (x.setFlushing stored k f).Ok there value where
  lock := h.lock
  left := h.left
  unstarted j hj := by
    have hne : j ≠ k := by
      rintro rfl
      cases hk.symm.trans hj
    simpa [setFlushing, hne] using h.unstarted j hj
  copies := hcopies
  flushes j c' hj _ := by
    obtain ⟨rfl, rfl⟩ := h.only_call hk hj
    simpa [setFlushing] using hf

include h hk hnot in
/-- There is an entry, and what is in it. -/
theorem Ok.entry_of_sent : ∃ d latest, x.cache c = some d ∧
    value = some (Contents.ofBytes latest) ∧
    Copies x.lock.has x.lock.left x.cache x.stored latest := by
  have hleft := left_of_sent hk hnot
  obtain ⟨latest, hvalue, hcopies⟩ := h.copies (h.left c hleft)
  obtain ⟨d, hd⟩ := Option.isSome_iff_exists.mp (hcopies.left c hleft)
  exact ⟨d, latest, hd, hvalue, hcopies⟩

include h hk hnot in
/-- A flush is over: the flags are cleared, and nobody has the lock. -/
theorem Ok.clear {d : FileData} (hd : x.cache c = some d)
    (hstored : d.isDirty = true → x.stored = some d.content)
    (hl : flushStep x.lock (.dorelease k) = some l) :
    ((x.setEntry c { d with isDirty := false, isPresent := false }).setLock l).Ok there value := by
  have hleft := left_of_sent hk hnot
  obtain ⟨_, hgone⟩ := h.lock.dorelease hl hk
  have hleft' : ∀ d, ¬ l.left d := fun d hd => hgone d hd.has
  have honly : ∀ d, x.lock.has d → d = c := fun d hd => h.lock.has_unique hd hleft.has
  obtain ⟨_, _, rfl⟩ := FlushSys.dorelease_iff.mp hl
  refine
    { lock := h.lock.step hl
      left := fun c hc => absurd hc (hleft' c)
      unstarted := h.unstarted
      copies := fun hthere => ?_
      flushes := fun j c' hj hnot' => ?_ }
  · obtain ⟨latest, hvalue, hcopies⟩ := h.copies hthere
    have hcur : x.stored = some latest := by
      cases hdirty : d.isDirty with
      | true => rw [hstored hdirty, hcopies.present c d hd (hcopies.dirty c d hd hdirty)]
      | false =>
        refine hcopies.upToDate honly fun f hf => ?_
        cases hd.symm.trans hf
        exact hdirty
    refine ⟨latest, hvalue, ?_⟩
    show Copies _ _ _ x.stored latest
    rw [hcur]
    exact hcopies.flush honly hleft' rfl rfl
  · obtain ⟨rfl, rfl⟩ := h.only_call hk hj
    simp [Slice.setLock] at hnot'

end Flush

end Slice

end Yfs.Cluster
