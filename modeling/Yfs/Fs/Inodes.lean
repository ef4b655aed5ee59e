/-
Yfs.Fs.Inodes — are the numbers of new inodes new? (extent_server.cc:
`GetInodeNum`; yfs_client.cc: `create`, `mkdir`.)

`GetInodeNum` tries what `rand()` gives until the server has no extent of
that number, and keeps nothing: the number is taken only when the extent
comes to the server. The new extent, though, goes into the cache of the
client that makes it, and from there to the server when its lock is given
back. Until then the server may give the number out again.

`entered_numbers_fresh`: a number that is about to be entered has the right
type and is neither 0 nor 1; and if `rand()` gives a number a second time only
when its extent has come to the server, it is in no directory yet.
`number_given_twice` is the run in which `rand()` does not.

What every copy of a directory names has been entered (`Inv.copies`); no
coherence of the caches is needed for that. That 1 is never given out is
because the root stays on the server. Nobody gives back a lock without an
entry in the cache, so no `flush` is a remove (`Inv.cached`); and `getattr`
finds the new extent (`Stays`), so nothing is undone with `RestoreInum`.
-/
import Yfs.Fs.Making
import Yfs.Lib.Run

namespace Yfs.Fs

open Yfs.Effect Function
open Yfs.Extent (Bytes Attr FileBlock FileData Cache Hold Rpc)
open Yfs.Run (Reach exists_reach)

/-! ## The condition -/

/-- When `rand()` gives a number that has been given out before, its extent
has come to the server. -/
def Making.Settled (s : Making) : Event → Prop
  | .call i _ rands => ∀ t ∈ s.tasks[i]?,
    match t.pc with
    | .getinode _ => ∀ r ∈ rands, candidate t.isFile r ∈ s.given →
        (s.shared.srv (candidate t.isFile r).toNat).isSome = true
    | _ => True
  | _ => True

instance (s : Making) (e : Event) : Decidable (s.Settled e) := by
  cases e with
  | start client isFile parent name | revoke lid now => exact inferInstanceAs (Decidable True)
  | call i now rands =>
    unfold Making.Settled
    have hdec (t : Task) : Decidable (match t.pc with
      | .getinode _ => ∀ r ∈ rands, candidate t.isFile r ∈ s.given →
          (s.shared.srv (candidate t.isFile r).toNat).isSome = true
      | _ => True) := by
      cases t.pc <;> infer_instance
    exact inferInstance

/-! ## What the calls do to caches and server -/

def Shared.Stays (w : Shared) (c e : Nat) : Prop :=
  (w.srv e).isSome = true ∨ ∃ d, w.cache c e = some d ∧ d.isPresent = true ∧ d.isDirty = true

structure Shared.Grows (w w' : Shared) : Prop where
  stored : ∀ e, (w.srv e).isSome = true → (w'.srv e).isSome = true
  entries : ∀ c e, (w.cache c e).isSome = true → (w'.cache c e).isSome = true
  stays : ∀ c e, w.Stays c e → w'.Stays c e

structure Shared.Touches (w w' : Shared) (c e : Nat) (d : FileData) : Prop where
  cache : w'.cache = update w.cache c ((w.cache c).set e d)
  srv : Extent.Server.contents w'.srv = Extent.Server.contents w.srv
  lock : w'.lock = w.lock
  dirty : ∀ d₀, w.cache c e = some d₀ → d₀.isPresent = true ∧ d₀.isDirty = true →
    d.isPresent = true ∧ d.isDirty = true

section Calls

variable {w w' : Shared} {c e : Nat} {d : FileData}

theorem isSome_iff_contents (fb : FileBlock) (e : Nat) :
    (fb e).isSome = true ↔ (Extent.Server.contents fb e).isSome = true := by
  simp [Extent.Server.contents]

theorem update_set_self (cache : Nat → Cache) (c e : Nat) (d : FileData) :
    update cache c ((cache c).set e d) c e = some d := by
  rw [update_self, Cache.set_self]

theorem update_set_of_ne (cache : Nat → Cache) {c e c' e' : Nat} (d : FileData)
    (hne : ¬ (c' = c ∧ e' = e)) :
    update cache c ((cache c).set e d) c' e' = cache c' e' := by
  rcases eq_or_ne c' c with rfl | hc
  · rw [update_self, Cache.set_of_ne fun he => hne ⟨rfl, he⟩]
  · rw [update_of_ne hc]

theorem isSome_update_set {cache : Nat → Cache} {c' e' : Nat} (d : FileData)
    (h : (cache c' e').isSome = true) :
    (update cache c ((cache c).set e d) c' e').isSome = true := by
  by_cases hsame : c' = c ∧ e' = e
  · obtain ⟨rfl, rfl⟩ := hsame
    rw [update_set_self]
    rfl
  · rwa [update_set_of_ne cache d hsame]

/-- What a cache has after one entry is written: that one, or an old one. -/
theorem of_update_set {cache : Nat → Cache} {c' e' : Nat} {d d' : FileData}
    (h : update cache c ((cache c).set e d) c' e' = some d') :
    d' = d ∨ cache c' e' = some d' := by
  by_cases hsame : c' = c ∧ e' = e
  · obtain ⟨rfl, rfl⟩ := hsame
    rw [update_set_self] at h
    exact .inl (Option.some.inj h).symm
  · rw [update_set_of_ne cache d hsame] at h
    exact .inr h

namespace Shared.Touches

theorem cache_self (h : w.Touches w' c e d) : w'.cache c e = some d := by
  rw [h.cache, update_set_self]

theorem grows (h : w.Touches w' c e d) : w.Grows w' := by
  have hstored : ∀ e, (w.srv e).isSome = true → (w'.srv e).isSome = true := by
    intro e he
    rw [isSome_iff_contents] at he ⊢
    rwa [h.srv]
  refine ⟨hstored, ?_, ?_⟩
  · intro c' e' he
    rw [h.cache]
    exact isSome_update_set d he
  · rintro c' e' (hsrv | ⟨d₀, hd₀, hflags⟩)
    · exact .inl (hstored _ hsrv)
    · by_cases hsame : c' = c ∧ e' = e
      · obtain ⟨rfl, rfl⟩ := hsame
        exact .inr ⟨d, h.cache_self, h.dirty d₀ hd₀ hflags⟩
      · exact .inr ⟨d₀, by rwa [h.cache, update_set_of_ne w.cache d hsame], hflags⟩

theorem copy (h : w.Touches w' c e d) {data : Bytes} (hc : w'.Copy data) :
    w.Copy data ∨ data = d.content := by
  rcases hc with ⟨e', he'⟩ | ⟨c', e', d', hd', rfl⟩
  · rw [h.srv] at he'
    exact .inl (.inl ⟨e', he'⟩)
  · rw [h.cache] at hd'
    rcases of_update_set hd' with rfl | hold
    · exact .inr rfl
    · exact .inl (.inr ⟨c', e', d', hold, rfl⟩)

theorem cached (h : w.Touches w' c e d)
    (hold : ∀ lid c, w.lock lid = .cached c → (w.cache c lid.toNat).isSome = true) :
    ∀ lid c, w'.lock lid = .cached c → (w'.cache c lid.toNat).isSome = true := by
  intro lid c hlock
  rw [h.lock] at hlock
  exact h.grows.entries _ _ (hold lid c hlock)

end Shared.Touches

/-- An entry that is present is in the cache. -/
theorem eq_some_of_present {ca : Cache} (h : (ca.entry e).isPresent = true) :
    ca e = some (ca.entry e) := by
  cases hd : ca e with
  | none => simp [Cache.entry, hd, FileData.new] at h
  | some d => simp [Cache.entry, hd]

variable {now : Nat} {rands : List Nat} {eid : Inum}

theorem serve_acquire {r : Unit} (h : w.serve c now rands (.acquire eid) = some (r, w')) :
    w' = { w with lock := update w.lock eid (.held c) } := by
  obtain ⟨_, h⟩ := Option.ite_none_right_eq_some.mp h
  exact (congrArg Prod.snd (Option.some.inj h)).symm

/-- `get` reads a copy of the extent, or nothing. -/
theorem serve_get {r : Option Bytes} (h : w.serve c now rands (.get eid) = some (r, w')) :
    ∃ d, w.Touches w' c eid.toNat d ∧ (w.Copy d.content ∨ d.content = []) ∧
      ∀ data ∈ r, data = d.content := by
  simp only [Shared.serve, Option.some.injEq, Prod.mk.injEq] at h
  obtain ⟨rfl, rfl⟩ := h
  cases hp : ((w.cache c).entry eid.toNat).isPresent with
  | true =>
    have hentry := eq_some_of_present hp
    simp only [Cache.get_hit now w.srv [] hp]
    refine ⟨_, ⟨rfl, rfl, rfl, ?_⟩, .inl (.inr ⟨c, _, _, hentry, rfl⟩), by simp⟩
    intro d₀ hd₀ hflags
    rw [Cache.entry_of_some hd₀]
    exact hflags
  | false =>
    simp only [Cache.get_miss now w.srv [] hp]
    refine ⟨_, ⟨rfl, ?_, rfl, ?_⟩, ?_, ?_⟩
    · funext e
      simp [Rpc.direct]
    · intro d₀ hd₀ hflags
      rw [Cache.entry_of_some hd₀] at hp
      exact absurd hflags.1 (by simp [hp])
    · cases hfb : w.srv eid.toNat with
      | none =>
        right
        simp [Rpc.direct, Extent.Server.get, hfb]
      | some content =>
        left
        refine .inl ⟨eid.toNat, ?_⟩
        simp [Rpc.direct, Extent.Server.get, Extent.Server.contents, hfb]
    · intro data hdata
      split at hdata
      · exact (Option.some.inj hdata).symm
      · cases hdata

/-- `getattr` leaves the entry as it is, and finds an extent that stays. -/
theorem serve_getattr {r : Option Attr}
    (h : w.serve c now rands (.getattr eid) = some (r, w')) :
    ∃ d, w.Touches w' c eid.toNat d ∧ (w.Copy d.content ∨ d.content = []) ∧
      (w.Stays c eid.toNat → r ≠ none) := by
  simp only [Shared.serve, Option.some.injEq, Prod.mk.injEq] at h
  obtain ⟨rfl, rfl⟩ := h
  have hdirty : ∀ d₀, w.cache c eid.toNat = some d₀ → d₀.isPresent = true ∧ d₀.isDirty = true →
      ((w.cache c).entry eid.toNat).isPresent = true ∧
        ((w.cache c).entry eid.toNat).isDirty = true := by
    intro d₀ hd₀ hflags
    rwa [Cache.entry_of_some hd₀]
  have hcontent : w.Copy ((w.cache c).entry eid.toNat).content ∨
      ((w.cache c).entry eid.toNat).content = [] := by
    cases hd : w.cache c eid.toNat with
    | none => exact .inr (by simp [Cache.entry, hd, FileData.new])
    | some d =>
      rw [Cache.entry_of_some hd]
      exact .inl (.inr ⟨c, _, d, hd, rfl⟩)
  cases hp : ((w.cache c).entry eid.toNat).isPresent with
  | true =>
    simp only [Cache.getattr, hp, if_true]
    exact ⟨_, ⟨rfl, rfl, rfl, hdirty⟩, hcontent, by simp⟩
  | false =>
    simp only [Cache.getattr, hp, Bool.false_eq_true, if_false]
    refine ⟨_, ⟨rfl, ?_, rfl, hdirty⟩, hcontent, ?_⟩
    · funext e
      simp [Rpc.direct]
    · rintro (hsrv | ⟨d, hd, hpresent, _⟩)
      · rw [isSome_iff_contents] at hsrv
        obtain ⟨data, hdata⟩ := Option.isSome_iff_exists.mp hsrv
        simp [Rpc.direct, Extent.Server.getattr_of_contents hdata]
      · rw [Cache.entry_of_some hd] at hp
        exact absurd hpresent (by simp [hp])

/-- `put` goes into the cache, and always does. -/
theorem serve_put {buf : Bytes} {r : Bool}
    (h : w.serve c now rands (.put eid buf) = some (r, w')) :
    ∃ d, w.Touches w' c eid.toNat d ∧ d.content = buf ∧ w'.Stays c eid.toNat ∧ r = true := by
  simp only [Shared.serve, Option.some.injEq, Prod.mk.injEq] at h
  obtain ⟨rfl, rfl⟩ := h
  exact ⟨_, ⟨rfl, rfl, rfl, fun _ _ _ => ⟨rfl, rfl⟩⟩, rfl,
    .inr ⟨_, update_set_self w.cache c _ _, rfl, rfl⟩, rfl⟩

/-- A lock goes back to the server, and what was written under it too. -/
theorem revoke_grows {lid : Inum}
    (hcached : ∀ c, w.lock lid = .cached c → (w.cache c lid.toNat).isSome = true)
    (h : w.revoke lid now = some w') :
    w.Grows w' ∧ (∀ data, w'.Copy data → w.Copy data) ∧
      w'.lock = update w.lock lid .free := by
  unfold Shared.revoke at h
  split at h
  · rename_i c hlock
    obtain ⟨d, hd⟩ := Option.isSome_iff_exists.mp (hcached c hlock)
    obtain ⟨hcache, hsrv⟩ := Cache.flush_spec now w.srv hd
    cases h
    rw [hcache]
    have hstored : ∀ e, (w.srv e).isSome = true →
        (((w.cache c).flush (Rpc.direct now) w.srv lid.toNat).2.2 e).isSome = true := by
      intro e he
      rw [isSome_iff_contents] at he ⊢
      rw [hsrv]
      split
      · rfl
      · exact he
    refine ⟨⟨hstored, fun c' e' he => isSome_update_set _ he, ?_⟩, ?_, rfl⟩
    · rintro c' e' (he | ⟨d₀, hd₀, hflags⟩)
      · exact .inl (hstored e' he)
      · by_cases hsame : c' = c ∧ e' = lid.toNat
        · -- the entry that was dirty has come to the server
          obtain ⟨rfl, rfl⟩ := hsame
          cases hd.symm.trans hd₀
          left
          rw [isSome_iff_contents, hsrv, if_pos ⟨rfl, hflags.2⟩]
          rfl
        · exact .inr ⟨d₀, (update_set_of_ne _ _ hsame).trans hd₀, hflags⟩
    · rintro data (⟨e', he'⟩ | ⟨c', e', d', hd', rfl⟩)
      · rw [hsrv] at he'
        split at he'
        · cases he'
          exact .inr ⟨c, _, d, hd, rfl⟩
        · exact .inl ⟨e', he'⟩
      · rcases of_update_set hd' with rfl | hold
        · exact .inr ⟨c, _, d, hd, rfl⟩
        · exact .inr ⟨c', e', d', hold, rfl⟩
  · cases h

end Calls

/-! ## The numbers in a directory -/

section

variable {beyond : Nat → UInt8}

theorem numbers_nil : numbers beyond [] = [] := by
  rw [numbers, dirOf_nil]
  rfl

/-- A directory with a new entry has one more number, or, when there are too
many to count, fewer. -/
theorem numbers_linked {data name : Bytes} {ino n : Inum}
    (h : n ∈ numbers beyond (linked beyond data name ino)) :
    n = ino ∨ n ∈ numbers beyond data := by
  obtain ⟨q, hq, rfl⟩ := List.mem_map.mp h
  rw [linked, dirOf_dirBytes beyond (keys_insert (keys_dirOf beyond data) name ino)] at hq
  rcases OrdMap.mem_foldl_insertNew hq with htake | hnone
  · rcases OrdMap.mem_insert (List.mem_of_mem_take htake) with rfl | hold
    · exact .inl rfl
    · exact .inr (List.mem_map_of_mem hold)
  · cases hnone

end

/-! ## What holds between two calls -/

def Pc.reading : Pc → Bool
  | .acquire => false
  | .get => false
  | .done _ => false
  | _ => true

def Pc.data : Pc → Option Bytes
  | .getinode data => some data
  | .putParent data _ => some data
  | _ => none

/-- The number that is about to be entered. -/
def Pc.pending : Pc → Option Inum
  | .putParent _ ino => some ino
  | _ => none

/-- The new extent, once it is made. -/
def Pc.made : Pc → Option Inum
  | .lockInode ino => some ino
  | .unlockInode ino => some ino
  | .getattr ino => some ino
  | _ => none

/-- The caches have what the task counts on: an entry for each lock it will
give back, and the extent it has made. So it never comes to undo anything. -/
structure Task.Kept (t : Task) (w : Shared) : Prop where
  parent : t.pc.reading = true → (w.cache t.client t.parent.toNat).isSome = true
  made : ∀ ino ∈ t.pc.made,
    (w.cache t.client ino.toNat).isSome = true ∧ w.Stays t.client ino.toNat
  intact : ∀ ino, t.pc ≠ .restore ino

/-- A number that is about to be entered is from the server, of the right
type, and the number of a possible inode. -/
def Task.Number (t : Task) (given : List Inum) (ino : Inum) : Prop :=
  ino ∈ given ∧ isfile ino = t.isFile ∧ ino ≠ 0 ∧ ino ≠ 1

section

variable (beyond : Nat → UInt8)

/-- `settled` says whether the run meets the condition; only `fresh` and
`apart` need it. -/
structure Making.Inv (settled : Prop) (s : Making) : Prop where
  copies : ∀ data, s.shared.Copy data → ∀ n ∈ numbers beyond data, n ∈ s.entered
  given : ∀ n ∈ s.entered, n ∈ s.given
  root : (s.shared.srv 1).isSome = true
  cached : ∀ lid c, s.shared.lock lid = .cached c →
    (s.shared.cache c lid.toNat).isSome = true
  kept : ∀ t ∈ s.tasks, t.Kept s.shared
  read : ∀ t ∈ s.tasks, ∀ data ∈ t.pc.data, ∀ n ∈ numbers beyond data, n ∈ s.entered
  number : ∀ t ∈ s.tasks, ∀ ino ∈ t.pc.pending, t.Number s.given ino
  fresh : settled → ∀ t ∈ s.tasks, ∀ ino ∈ t.pc.pending, ino ∉ s.entered
  apart : settled → ∀ (i j : Nat) (t u : Task), s.tasks[i]? = some t → s.tasks[j]? = some u →
    i ≠ j → ∀ ino ∈ t.pc.pending, ino ∉ u.pc.pending

end

theorem Task.Kept.grows {t : Task} {w w' : Shared} (h : t.Kept w) (hg : w.Grows w') :
    t.Kept w' where
  parent hr := hg.entries _ _ (h.parent hr)
  made ino hino := ⟨hg.entries _ _ (h.made ino hino).1, hg.stays _ _ (h.made ino hino).2⟩
  intact := h.intact

theorem grows_lock (w : Shared) (lock : Inum → Hold) : w.Grows { w with lock := lock } :=
  ⟨fun _ h => h, fun _ _ h => h, fun _ _ h => h⟩

section Steps

variable {beyond : Nat → UInt8} {settled : Prop} {s s' : Making} {w : Shared} {i now : Nat}
  {t : Task} {rands : List Nat}

variable {l : List Task} {t' : Task} {pc : Pc} {ino : Inum}

theorem getElem?_set_cases {u : Task} {k : Nat} (h : (l.set i t')[k]? = some u) :
    (k = i ∧ u = t') ∨ (k ≠ i ∧ l[k]? = some u) := by
  rcases eq_or_ne k i with rfl | hne
  · rw [List.getElem?_set_self'] at h
    obtain ⟨_, _, rfl⟩ := Option.map_eq_some_iff.mp h
    exact .inl ⟨rfl, rfl⟩
  · rw [List.getElem?_set_ne hne.symm] at h
    exact .inr ⟨hne, h⟩

theorem forall_mem_set {p : Task → Prop} (h : ∀ u ∈ l, p u) (h' : p t') :
    ∀ u ∈ l.set i t', p u := by
  intro u hu
  rcases List.mem_or_eq_of_mem_set hu with hu | rfl
  · exact h u hu
  · exact h'

theorem getElem?_concat_cases {u : Task} {k : Nat} (h : (l ++ [t'])[k]? = some u) :
    l[k]? = some u ∨ u = t' := by
  rw [List.getElem?_append] at h
  split at h
  · exact .inl h
  · exact .inr (by simpa using List.mem_of_getElem? h)

/-- The `i`-th task goes on. It may have got a number that was not given out
before, or have entered the one it had. -/
theorem Making.Inv.advance (hi : s.Inv beyond settled) (ht : s.tasks[i]? = some t)
    {given entered : List Inum} (hg : s.shared.Grows w)
    (hcopies : ∀ data, w.Copy data → ∀ n ∈ numbers beyond data, n ∈ entered)
    (hcached : ∀ lid c, w.lock lid = .cached c → (w.cache c lid.toNat).isSome = true)
    (hgiven : ∀ n ∈ s.given, n ∈ given) (hold : ∀ n ∈ s.entered, n ∈ entered)
    (hnew : ∀ n ∈ entered, n ∈ s.entered ∨ n ∈ t.pc.pending)
    (hkept : Task.Kept { t with pc := pc } w)
    (hread : ∀ data ∈ pc.data, ∀ n ∈ numbers beyond data, n ∈ entered)
    (hnumber : ∀ ino ∈ pc.pending, t.Number given ino)
    (hfresh : settled → ∀ ino ∈ pc.pending, ino ∉ s.given) :
    Making.Inv beyond settled
      { shared := w, tasks := s.tasks.set i { t with pc := pc }, given := given
        entered := entered } := by
  have hmem := List.mem_of_getElem? ht
  have hbefore : ∀ n ∈ entered, n ∈ s.given := by
    intro n hn
    rcases hnew n hn with hn | hn
    · exact hi.given n hn
    · exact (hi.number t hmem n hn).1
  refine ⟨hcopies, fun n hn => hgiven n (hbefore n hn), hg.stored _ hi.root, hcached, ?_, ?_, ?_,
    ?_, ?_⟩
  · exact forall_mem_set (fun u hu => (hi.kept u hu).grows hg) hkept
  · exact forall_mem_set (fun u hu data hdata n hn => hold n (hi.read u hu data hdata n hn)) hread
  · refine forall_mem_set ?_ hnumber
    intro u hu ino hino
    obtain ⟨hin, htype⟩ := hi.number u hu ino hino
    exact ⟨hgiven _ hin, htype⟩
  · intro hok u hu ino hino hnow
    obtain ⟨k, hk⟩ := List.getElem?_of_mem hu
    rcases getElem?_set_cases hk with ⟨_, rfl⟩ | ⟨hne, hk⟩
    · exact hfresh hok ino hino (hbefore ino hnow)
    · -- what has been entered now was the number of the `i`-th task
      rcases hnew ino hnow with hnow | hnow
      · exact hi.fresh hok u (List.mem_of_getElem? hk) ino hino hnow
      · exact hi.apart hok k i u t hk ht hne ino hino hnow
  · intro hok k l u v hu hv hne ino hino hino'
    rcases getElem?_set_cases hu with ⟨hk, rfl⟩ | ⟨_, hku⟩
    · rcases getElem?_set_cases hv with ⟨hl, rfl⟩ | ⟨_, hlv⟩
      · exact hne (hk.trans hl.symm)
      · exact hfresh hok ino hino (hi.number v (List.mem_of_getElem? hlv) ino hino').1
    · rcases getElem?_set_cases hv with ⟨_, rfl⟩ | ⟨_, hlv⟩
      · exact hfresh hok ino hino' (hi.number u (List.mem_of_getElem? hku) ino hino).1
      · exact hi.apart hok k l u v hku hlv hne ino hino hino'

/-- A step that has nothing to do with numbers. -/
theorem Making.Inv.goOn (hi : s.Inv beyond settled) (ht : s.tasks[i]? = some t)
    (hg : s.shared.Grows w) (hcopies : ∀ data, w.Copy data → s.shared.Copy data ∨ data = [])
    (hcached : ∀ lid c, w.lock lid = .cached c → (w.cache c lid.toNat).isSome = true)
    (hkept : Task.Kept { t with pc := pc } w)
    (hread : ∀ data ∈ pc.data, s.shared.Copy data ∨ data = []) (hpending : pc.pending = none) :
    Making.Inv beyond settled
      { s with shared := w, tasks := s.tasks.set i { t with pc := pc } } := by
  have hnumbers : ∀ data, s.shared.Copy data ∨ data = [] →
      ∀ n ∈ numbers beyond data, n ∈ s.entered := by
    rintro data (hcopy | rfl)
    · exact hi.copies data hcopy
    · simp [numbers_nil]
  exact hi.advance ht hg (fun data hdata => hnumbers data (hcopies data hdata)) hcached
    (fun _ h => h) (fun _ h => h) (fun _ h => .inl h) hkept
    (fun data hdata => hnumbers data (hread data hdata)) (by simp [hpending])
    (by simp [hpending])

/-! One lemma for each call; `w` is what it leaves. -/

/-- A lock that is taken or given back, with the extent in the cache. -/
theorem Making.Inv.locked (hi : s.Inv beyond settled) (ht : s.tasks[i]? = some t) {lid : Inum}
    {h : Hold} (hcache : ∀ c, h = .cached c → (s.shared.cache c lid.toNat).isSome = true)
    (hkept : Task.Kept { t with pc := pc } s.shared) (hdata : pc.data = none)
    (hpending : pc.pending = none) :
    Making.Inv beyond settled
      { s with
        shared := { s.shared with lock := update s.shared.lock lid h }
        tasks := s.tasks.set i { t with pc := pc } } := by
  have hg := grows_lock s.shared (update s.shared.lock lid h)
  refine hi.goOn ht hg (fun _ h => .inl h) ?_ (hkept.grows hg) (by simp [hdata]) hpending
  intro lid' c hlock
  replace hlock : update s.shared.lock lid h lid' = .cached c := hlock
  by_cases hlid : lid' = lid
  · subst hlid
    exact hcache c (by rwa [update_self] at hlock)
  · exact hi.cached lid' c (by rwa [update_of_ne hlid] at hlock)

/-- A call that writes one entry of the caller's cache and no number. -/
theorem Making.Inv.touched (hi : s.Inv beyond settled) (ht : s.tasks[i]? = some t) {e : Nat}
    {d : FileData} (htouch : s.shared.Touches w t.client e d)
    (hcontent : s.shared.Copy d.content ∨ d.content = [])
    (hkept : Task.Kept { t with pc := pc } w) (hread : ∀ data ∈ pc.data, data = d.content)
    (hpending : pc.pending = none) :
    Making.Inv beyond settled
      { s with shared := w, tasks := s.tasks.set i { t with pc := pc } } := by
  refine hi.goOn ht htouch.grows ?_ (htouch.cached hi.cached) hkept ?_ hpending
  · intro data hdata
    rcases htouch.copy hdata with hold | rfl
    · exact .inl hold
    · exact hcontent
  · intro data hdata
    rw [hread data hdata]
    exact hcontent

theorem Making.Inv.call_get (hi : s.Inv beyond settled) (ht : s.tasks[i]? = some t)
    {r : Option Bytes} (hs : s.shared.serve t.client now rands (.get t.parent) = some (r, w))
    (hpc : pc = .getinode (r.getD []) ∧ r.isSome = true ∨ ∃ out, pc = .release out) :
    Making.Inv beyond settled
      { s with shared := w, tasks := s.tasks.set i { t with pc := pc } } := by
  obtain ⟨d, htouch, hcontent, hr⟩ := serve_get hs
  have hentry : (w.cache t.client t.parent.toNat).isSome = true := by simp [htouch.cache_self]
  rcases hpc with ⟨rfl, hsome⟩ | ⟨out, rfl⟩
  · obtain ⟨data, rfl⟩ := Option.isSome_iff_exists.mp hsome
    refine hi.touched ht htouch hcontent ⟨fun _ => hentry, nofun, nofun⟩ ?_ rfl
    intro data' hdata'
    cases hdata'
    exact hr data rfl
  · exact hi.touched ht htouch hcontent ⟨fun _ => hentry, nofun, nofun⟩ nofun rfl

/-- The server gives out a number that has no extent. -/
theorem Making.Inv.call_getinode (hi : s.Inv beyond settled) (ht : s.tasks[i]? = some t)
    {data : Bytes} (hpc : t.pc = .getinode data)
    (hs : getInodeNum s.shared.srv t.isFile rands = some ino) (hzero : ino ≠ 0)
    (hok : settled → s.Settled (.call i now rands)) :
    Making.Inv beyond settled
      { s with
        tasks := s.tasks.set i { t with pc := .putParent data ino }
        given := ino :: s.given } := by
  have hmem := List.mem_of_getElem? ht
  obtain ⟨hfree, r, hr, rfl⟩ := getInodeNum_eq hs
  have hfresh : settled → candidate t.isFile r ∉ s.given := by
    intro hset hgiven
    have hsettled := hok hset t ht
    simp only [hpc] at hsettled
    simpa [hfree] using hsettled r hr hgiven
  have hone : candidate t.isFile r ≠ 1 := by
    intro hone
    rw [hone] at hfree
    exact absurd hi.root (by simpa using hfree)
  refine hi.advance ht ⟨fun _ h => h, fun _ _ h => h, fun _ _ h => h⟩ hi.copies hi.cached
    (fun _ h => List.mem_cons_of_mem _ h) (fun _ h => h) (fun _ h => .inl h)
    ⟨fun _ => (hi.kept t hmem).parent (by rw [hpc]; rfl), nofun, nofun⟩ ?_ ?_ ?_
  · intro data' hdata'
    exact hi.read t hmem data' (by rw [hpc]; exact hdata')
  · intro ino hino
    cases hino
    exact ⟨List.mem_cons_self, isfile_candidate hone, hzero, hone⟩
  · intro hset ino hino
    cases hino
    exact hfresh hset

/-- The number is entered. -/
theorem Making.Inv.call_putParent (hi : s.Inv beyond settled) (ht : s.tasks[i]? = some t)
    {data : Bytes} {r : Bool} (hpc : t.pc = .putParent data ino)
    (hs : s.shared.serve t.client now rands (.put t.parent (linked beyond data t.name ino)) =
      some (r, w)) :
    r = true ∧
      Making.Inv beyond settled
        { s with
          shared := w, tasks := s.tasks.set i { t with pc := .putInode ino }
          entered := ino :: s.entered } := by
  have hmem := List.mem_of_getElem? ht
  obtain ⟨d, htouch, hbuf, -, hr⟩ := serve_put hs
  have hentry : (w.cache t.client t.parent.toNat).isSome = true := by simp [htouch.cache_self]
  refine ⟨hr, hi.advance ht htouch.grows ?_ (htouch.cached hi.cached) (fun _ h => h)
    (fun _ h => List.mem_cons_of_mem _ h) ?_ ⟨fun _ => hentry, nofun, nofun⟩ nofun nofun nofun⟩
  · intro data' hdata' n hn
    rcases htouch.copy hdata' with hold | rfl
    · exact List.mem_cons_of_mem _ (hi.copies data' hold n hn)
    · rw [hbuf] at hn
      rcases numbers_linked hn with rfl | hn
      · exact List.mem_cons_self
      · exact List.mem_cons_of_mem _ (hi.read t hmem data (by rw [hpc]; rfl) n hn)
  · intro n hn
    rcases List.mem_cons.mp hn with rfl | hn
    · exact .inr (by rw [hpc]; rfl)
    · exact .inl hn

/-- The new extent is made, empty. -/
theorem Making.Inv.call_putInode (hi : s.Inv beyond settled) (ht : s.tasks[i]? = some t)
    {r : Bool} (hpc : t.pc = .putInode ino)
    (hs : s.shared.serve t.client now rands (.put ino []) = some (r, w)) :
    r = true ∧
      Making.Inv beyond settled
        { s with shared := w, tasks := s.tasks.set i { t with pc := .lockInode ino } } := by
  obtain ⟨d, htouch, hbuf, hstays, hr⟩ := serve_put hs
  have hkept := (hi.kept t (List.mem_of_getElem? ht)).grows htouch.grows
  refine ⟨hr, hi.touched ht htouch (.inr hbuf) ⟨fun _ => hkept.parent (by rw [hpc]; rfl), ?_,
    nofun⟩ nofun rfl⟩
  intro ino' hino'
  cases hino'
  exact ⟨by simp [htouch.cache_self], hstays⟩

/-- The attributes of the new extent are there. -/
theorem Making.Inv.call_getattr (hi : s.Inv beyond settled) (ht : s.tasks[i]? = some t)
    {r : Option Attr} (hpc : t.pc = .getattr ino)
    (hs : s.shared.serve t.client now rands (.getattr ino) = some (r, w))
    (out : Status × Option Inum) :
    r ≠ none ∧
      Making.Inv beyond settled
        { s with shared := w, tasks := s.tasks.set i { t with pc := .release out } } := by
  have hkept := hi.kept t (List.mem_of_getElem? ht)
  obtain ⟨d, htouch, hcontent, hr⟩ := serve_getattr hs
  refine ⟨hr (hkept.made ino (by rw [hpc]; rfl)).2, hi.touched ht htouch hcontent
    ⟨fun _ => (hkept.grows htouch.grows).parent (by rw [hpc]; rfl), nofun, nofun⟩ nofun rfl⟩

/-- Every call keeps the invariant: the cases are the places of `Task.ask`. -/
theorem Making.Inv.call (hi : s.Inv beyond settled) (hok : settled → s.Settled (.call i now rands))
    (h : s.step beyond (.call i now rands) = some s') : s'.Inv beyond settled := by
  obtain ⟨t, ht, h⟩ := Option.bind_eq_some_iff.mp h
  obtain ⟨⟨c, k⟩, hask, h⟩ := Option.bind_eq_some_iff.mp h
  obtain ⟨⟨r, w⟩, hs, rfl⟩ := Option.map_eq_some_iff.mp h
  have hkept := hi.kept t (List.mem_of_getElem? ht)
  cases hpc : t.pc with
  | acquire =>
    rw [hpc] at hask
    cases hask
    obtain rfl := serve_acquire hs
    exact hi.locked ht nofun ⟨nofun, nofun, nofun⟩ rfl rfl
  | get =>
    rw [hpc] at hask
    cases hask
    cases r with
    | none => exact hi.call_get ht hs (.inr ⟨_, rfl⟩)
    | some data =>
      dsimp only
      split
      · exact hi.call_get ht hs (.inr ⟨_, rfl⟩)
      · exact hi.call_get ht hs (.inl ⟨rfl, rfl⟩)
  | getinode data =>
    rw [hpc] at hask
    cases hask
    obtain ⟨ino, hino, hout⟩ := Option.map_eq_some_iff.mp hs
    cases hout
    dsimp only [Option.getD_some]
    split
    · refine hi.goOn ht ⟨fun _ h => h, fun _ _ h => h, fun _ _ h => h⟩ (fun _ h => .inl h)
        hi.cached ⟨fun _ => hkept.parent (by rw [hpc]; rfl), nofun, nofun⟩ nofun rfl
    · rename_i hzero
      exact hi.call_getinode ht hpc hino hzero hok
  | putParent data ino =>
    rw [hpc] at hask
    cases hask
    obtain ⟨rfl, hinv⟩ := hi.call_putParent ht hpc hs
    exact hinv
  | putInode ino =>
    rw [hpc] at hask
    cases hask
    obtain ⟨rfl, hinv⟩ := hi.call_putInode ht hpc hs
    exact hinv
  | lockInode ino =>
    rw [hpc] at hask
    cases hask
    obtain rfl := serve_acquire hs
    exact hi.locked ht nofun ⟨fun _ => hkept.parent (by rw [hpc]; rfl),
      fun ino' hino' => hkept.made ino' (by rw [hpc]; exact hino'), nofun⟩ rfl rfl
  | unlockInode ino =>
    rw [hpc] at hask
    cases hask
    cases hs
    refine hi.locked ht ?_ ⟨fun _ => hkept.parent (by rw [hpc]; rfl),
      fun ino' hino' => hkept.made ino' (by rw [hpc]; exact hino'), nofun⟩ rfl rfl
    intro c hc
    obtain rfl := Hold.cached.inj hc
    exact (hkept.made ino (by rw [hpc]; rfl)).1
  | getattr ino =>
    rw [hpc] at hask
    cases hask
    obtain ⟨hr, hinv⟩ := hi.call_getattr ht hpc hs (.OK, some ino)
    cases r with
    | none => exact absurd rfl hr
    | some a => exact hinv
  | restore ino => exact absurd hpc (hkept.intact ino)
  | release out =>
    rw [hpc] at hask
    cases hask
    cases hs
    refine hi.locked ht ?_ ⟨nofun, nofun, nofun⟩ rfl rfl
    intro c hc
    obtain rfl := Hold.cached.inj hc
    exact hkept.parent (by rw [hpc]; rfl)
  | done out =>
    rw [hpc] at hask
    cases hask

theorem Making.Inv.revoke {lid : Inum} (hi : s.Inv beyond settled)
    (h : s.step beyond (.revoke lid now) = some s') : s'.Inv beyond settled := by
  obtain ⟨w, hw, rfl⟩ := Option.map_eq_some_iff.mp h
  obtain ⟨hg, hcopies, hlock⟩ := revoke_grows (hi.cached lid) hw
  refine ⟨fun data hdata => hi.copies data (hcopies data hdata), hi.given, hg.stored _ hi.root, ?_,
    fun t ht => (hi.kept t ht).grows hg, hi.read, hi.number, hi.fresh, hi.apart⟩
  intro lid' c hlid
  rw [hlock] at hlid
  by_cases hsame : lid' = lid
  · subst hsame
    rw [update_self] at hlid
    cases hlid
  · rw [update_of_ne hsame] at hlid
    exact hg.entries _ _ (hi.cached lid' c hlid)

/-- A new task has no number yet. -/
theorem Making.Inv.start (hi : s.Inv beyond settled) {c : Nat} {isFile : Bool} {parent : Inum}
    {name : Bytes} (h : s.step beyond (.start c isFile parent name) = some s') :
    s'.Inv beyond settled := by
  cases h
  have hall {p : Task → Prop} (hold : ∀ u ∈ s.tasks, p u)
      (hnew : p ⟨c, isFile, parent, name, .acquire⟩) :
      ∀ u ∈ s.tasks ++ [⟨c, isFile, parent, name, .acquire⟩], p u :=
    List.forall_mem_append.mpr ⟨hold, List.forall_mem_singleton.mpr hnew⟩
  refine ⟨hi.copies, hi.given, hi.root, hi.cached, hall hi.kept ⟨nofun, nofun, nofun⟩,
    hall hi.read nofun, hall hi.number nofun, fun hok => hall (hi.fresh hok) nofun, ?_⟩
  intro hok k l u v hu hv hne ino hino hino'
  rcases getElem?_concat_cases hu with hu | rfl
  · rcases getElem?_concat_cases hv with hv | rfl
    · exact hi.apart hok k l u v hu hv hne ino hino hino'
    · cases hino'
  · cases hino

theorem Making.inv_init : Making.init.Inv beyond settled := by
  refine ⟨?_, nofun, rfl, nofun, nofun, nofun, nofun, nofun, ?_⟩
  · rintro data (⟨e, he⟩ | ⟨c, e, d, hd, _⟩)
    · -- the root of the new server is the only extent, and it is empty
      rw [Making.init, Extent.Server.contents_put] at he
      obtain ⟨_, rfl⟩ := Run.of_guard he
      simp [numbers_nil]
    · cases hd
  · intro _ i j t u ht
    simp [Making.init] at ht

theorem Making.inv_reach
    (hr : Reach (Making.step beyond) (fun s e => settled → s.Settled e) Making.init s) :
    s.Inv beyond settled := by
  refine hr.invariant (Making.Inv beyond settled) Making.inv_init ?_
  intro s e s' hi hok h
  cases e with
  | start c isFile parent name => exact hi.start h
  | call i now rands => exact hi.call hok h
  | revoke lid now => exact hi.revoke h

end Steps

/-! ## New numbers -/

/-- The number a task is about to enter is of the right type, not 0 and not the
root; and if `rand()` gives a number again only when its extent has come to
the server, it is in no copy of a directory. -/
theorem entered_numbers_fresh (beyond : Nat → UInt8) (s : Making)
    (hr : Reach (Making.step beyond) (fun _ _ => True) Making.init s) (i : Nat) (t : Task)
    (ino : Inum) (ht : s.tasks[i]? = some t) (hino : t.pc.pending = some ino) :
    (Reach (Making.step beyond) Making.Settled Making.init s →
      ∀ data, s.shared.Copy data → ino ∉ numbers beyond data) ∧
    isfile ino = t.isFile ∧ ino ≠ 0 ∧ ino ≠ 1 := by
  have hmem := List.mem_of_getElem? ht
  refine ⟨?_, ?_⟩
  · intro hsettled data hdata hin
    have hi : s.Inv beyond True := Making.inv_reach (hsettled.mono fun _ _ h _ => h)
    exact hi.fresh trivial t hmem ino hino (hi.copies data hdata ino hin)
  · have hi : s.Inv beyond False := Making.inv_reach (hr.mono fun _ _ _ h => h.elim)
    exact (hi.number t hmem ino hino).2

/-- `n` calls of task `i`, in which `rand()` gives `rands`. -/
def calls (i : Nat) (rands : List Nat) (n : Nat) : List Event :=
  List.replicate n (.call i 0 rands)

def firstMade : List Event :=
  .start 0 true 1 [120] :: .start 1 true 1 [121] :: (calls 0 [5] 9 ++ [Event.revoke 1 0])

def givenOnce : List Event := firstMade ++ Event.revoke 0x80000005 0 :: calls 1 [5, 6] 3

def givenTwice : List Event := firstMade ++ calls 1 [5] 3

set_option maxRecDepth 100000 in
/-- 5 comes from `rand()` again, but the extent is there and the server takes
the next one. -/
theorem entered_numbers_fresh_second : ∃ s t,
    Reach (Making.step fun _ => 0) Making.Settled Making.init s ∧ s.tasks[1]? = some t ∧
    t.pc.pending = some 0x80000006 ∧ 0x80000005 ∈ s.given ∧
    (∀ data, s.shared.Copy data → 0x80000006 ∉ numbers (fun _ => 0) data) ∧
    isfile 0x80000006 = t.isFile := by
  obtain ⟨s, hr, t, ht, hino, hgiven⟩ :
      ∃ s, Reach (Making.step fun _ => 0) Making.Settled Making.init s ∧
        ∃ t, s.tasks[1]? = some t ∧ t.pc.pending = some 0x80000006 ∧ 0x80000005 ∈ s.given :=
    exists_reach givenOnce (by decide +kernel)
  have hfresh := entered_numbers_fresh (fun _ => 0) s (hr.mono fun _ _ _ => trivial) 1 t
    0x80000006 ht hino
  exact ⟨s, t, hr, ht, hino, hgiven, hfresh.1 hr, hfresh.2.1⟩

set_option maxRecDepth 100000 in
/-- The new file `x` has number 0x80000005 in the root, on the server, and its
extent is in the cache of client 0. `rand()` gives 5 again, and client 1
enters the same number for `y`: both names are of one inode then. -/
theorem number_given_twice : ∃ s s' t data d,
    Reach (Making.step fun _ => 0) (fun _ _ => True) Making.init s ∧ s.tasks[1]? = some t ∧
    t.pc.pending = some 0x80000005 ∧ Extent.Server.contents s.shared.srv 1 = some data ∧
    0x80000005 ∈ numbers (fun _ => 0) data ∧
    Making.step (fun _ => 0) s (.call 1 0 []) = some s' ∧ s'.shared.cache 1 1 = some d ∧
    numbers (fun _ => 0) d.content = [0x80000005, 0x80000005] := by
  obtain ⟨s, hr, t, ht, hino, data, hdata, hmem, s', hs, d, hd, hboth⟩ :
      ∃ s, Reach (Making.step fun _ => 0) (fun _ _ => True) Making.init s ∧
        ∃ t, s.tasks[1]? = some t ∧ t.pc.pending = some 0x80000005 ∧
        ∃ data, Extent.Server.contents s.shared.srv 1 = some data ∧
          0x80000005 ∈ numbers (fun _ => 0) data ∧
        ∃ s', Making.step (fun _ => 0) s (.call 1 0 []) = some s' ∧
        ∃ d, s'.shared.cache 1 1 = some d ∧
          numbers (fun _ => 0) d.content = [0x80000005, 0x80000005] :=
    exists_reach givenTwice (by decide +kernel)
  exact ⟨s, s', t, data, d, hr, ht, hino, hdata, hmem, hs, hd, hboth⟩

end Yfs.Fs
