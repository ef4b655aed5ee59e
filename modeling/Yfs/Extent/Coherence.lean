/-
Yfs.Extent.Coherence — several caching clients, one extent server, and a
lock per extent.

A SECTION of a client on an extent lasts from the grant of the lock to
the moment the lock is given back. Inside it the client makes any number
of `get`, `getattr` and `put` calls; at its end
`lock_client_cache::DealRelease` calls `lock_release_user_dev::dorelease`
(that is `extent_client_cache::flush`), and only then sends the release.
The three steps `acquire`, `dorelease` and `release` are separate events,
so sections on different extents interleave freely and another client
can take the lock only once the release has arrived.

`latest` and `gets` are history: the contents of the most recent put in
lock order, and every `get` together with what it should have returned.

The defect. `flush` of a client whose cache has NO entry for the extent
is a remove at the server, and a section that makes no call leaves no
entry. `coherent_iff_flush_finds_entry` says that this is the only way
to lose coherence: a run is coherent throughout exactly when every flush
in it finds an entry.
-/
import Yfs.Extent.Cache

namespace Yfs.Extent

open Run Function

abbrev Client := Nat

structure Observed where
  eid : Eid
  ret : Status
  buf : Bytes
  expected : Bytes
  deriving DecidableEq, Repr

structure Sys where
  srv : FileBlock
  cache : Client → Cache
  lock : Eid → Hold
  latest : Eid → Bytes
  gets : List Observed

def Sys.init (fb : FileBlock) : Sys :=
  { srv := fb
    cache := fun _ _ => none
    lock := fun _ => .free
    latest := fun eid => (Server.contents fb eid).getD []
    gets := [] }

inductive Event where
  | acquire (c : Client) (eid : Eid)
  | get (c : Client) (eid : Eid) (now : Nat) (buf : Bytes)
  | getattr (c : Client) (eid : Eid) (now : Nat) (attr : Attr)
  | put (c : Client) (eid : Eid) (now : Nat) (buf : Bytes)
  | dorelease (c : Client) (eid : Eid) (now : Nat)
  | release (c : Client) (eid : Eid)
  deriving DecidableEq, Repr

def Sys.setCache (s : Sys) (c : Client) (ca : Cache) : Client → Cache :=
  update s.cache c ca

def step (s : Sys) : Event → Option Sys
  | .acquire c eid =>
    if s.lock eid = .free then
      some { s with lock := update s.lock eid (.held c) }
    else none
  | .get c eid now buf =>
    if s.lock eid = .held c then
      let out := (s.cache c).get (Rpc.direct now) now s.srv eid buf
      some { s with
        cache := s.setCache c out.2.1
        srv := out.2.2
        gets := ⟨eid, out.1.1, out.1.2, s.latest eid⟩ :: s.gets }
    else none
  | .getattr c eid now attr =>
    if s.lock eid = .held c then
      let out := (s.cache c).getattr (Rpc.direct now) s.srv eid attr
      some { s with cache := s.setCache c out.2.1, srv := out.2.2 }
    else none
  | .put c eid now buf =>
    if s.lock eid = .held c then
      some { s with
        cache := s.setCache c ((s.cache c).put now eid buf).2
        latest := update s.latest eid buf }
    else none
  | .dorelease c eid now =>
    if s.lock eid = .held c then
      let out := (s.cache c).flush (Rpc.direct now) s.srv eid
      some { s with
        cache := s.setCache c out.2.1
        srv := out.2.2
        lock := update s.lock eid (.returning c) }
    else none
  | .release c eid =>
    if s.lock eid = .returning c then
      some { s with lock := update s.lock eid .free }
    else none

/-- The extent is on the server, and every `get` of it so far returned
the most recent put. -/
def Coherent (eid : Eid) (s : Sys) : Prop :=
  (s.srv eid).isSome = true ∧
    ∀ g ∈ s.gets, g.eid = eid → g.ret = .OK ∧ g.buf = g.expected

/-- A flush of the extent finds an entry in the cache of its client. -/
def FlushFindsEntry (eid : Eid) (s : Sys) : Event → Prop
  | .dorelease c eid' _ => eid' = eid → (s.cache c eid).isSome = true
  | _ => True

/-! ## The invariant -/

/-- What holds of one extent between two steps. A client outside its
section has nothing present and nothing dirty; what is present is the
latest put; and the server is behind only while the holder is dirty. -/
structure Inv (eid : Eid) (s : Sys) : Prop where
  stored : (Server.contents s.srv eid).isSome = true
  idle : ∀ c d, s.lock eid ≠ .held c → s.cache c eid = some d →
    d.isPresent = false ∧ d.isDirty = false
  dirty : ∀ c d, s.cache c eid = some d → d.isDirty = true → d.isPresent = true
  present : ∀ c d, s.cache c eid = some d → d.isPresent = true → d.content = s.latest eid
  settled : (∀ c d, s.lock eid = .held c → s.cache c eid = some d → d.isDirty = false) →
    Server.contents s.srv eid = some (s.latest eid)
  gets : ∀ g ∈ s.gets, g.eid = eid → g.ret = .OK ∧ g.buf = g.expected

variable {eid : Eid} {s s' : Sys}

theorem Inv.coherent (h : Inv eid s) : Coherent eid s := by
  refine ⟨?_, h.gets⟩
  simpa [Server.contents] using h.stored

theorem inv_init {fb : FileBlock} (h : (fb eid).isSome = true) : Inv eid (Sys.init fb) := by
  obtain ⟨⟨a, d⟩, hfb⟩ := Option.isSome_iff_exists.mp h
  refine ⟨?_, ?_, ?_, ?_, ?_, ?_⟩ <;> simp [Sys.init, Server.contents, hfb]

/-- A step that changes nothing the invariant of `eid` reads keeps it. -/
theorem Inv.congr (h : Inv eid s) (hsrv : Server.contents s'.srv eid = Server.contents s.srv eid)
    (hcache : ∀ c, s'.cache c eid = s.cache c eid) (hlock : s'.lock eid = s.lock eid)
    (hlatest : s'.latest eid = s.latest eid)
    (hgets : ∀ g ∈ s'.gets, g.eid = eid → g.ret = .OK ∧ g.buf = g.expected) : Inv eid s' := by
  refine ⟨?_, ?_, ?_, ?_, ?_, hgets⟩
  · rw [hsrv]; exact h.stored
  · intro c d; rw [hlock, hcache]; exact h.idle c d
  · intro c d; rw [hcache]; exact h.dirty c d
  · intro c d; rw [hcache, hlatest]; exact h.present c d
  · rw [hsrv, hlatest, hlock]
    intro hd
    exact h.settled fun c d hc hcd => hd c d hc (by rw [hcache]; exact hcd)

/-- The holder's entry decides the whole invariant: nobody else has
anything present or dirty. -/
theorem Inv.of_holder {c : Client} {d : FileData} (h : Inv eid s) (hc : s.lock eid = .held c)
    (hlock : s'.lock = s.lock) (hself : s'.cache c eid = some d)
    (hother : ∀ c', c' ≠ c → s'.cache c' eid = s.cache c' eid)
    (hstored : (Server.contents s'.srv eid).isSome = true)
    (hdirty : d.isDirty = true → d.isPresent = true)
    (hpresent : d.isPresent = true → d.content = s'.latest eid)
    (hsettled : d.isDirty = false → Server.contents s'.srv eid = some (s'.latest eid))
    (hgets : ∀ g ∈ s'.gets, g.eid = eid → g.ret = .OK ∧ g.buf = g.expected) : Inv eid s' := by
  have hidle : ∀ c' d', c' ≠ c → s'.cache c' eid = some d' →
      d'.isPresent = false ∧ d'.isDirty = false := by
    intro c' d' hne hd'
    rw [hother c' hne] at hd'
    exact h.idle c' d' (by rw [hc]; simpa using hne.symm) hd'
  refine ⟨hstored, ?_, ?_, ?_, ?_, hgets⟩
  · intro c' d' hl hd'
    rw [hlock, hc] at hl
    exact hidle c' d' (fun he => hl (by rw [he])) hd'
  · intro c' d' hd' hdd
    by_cases he : c' = c
    · subst he
      cases hself.symm.trans hd'
      exact hdirty hdd
    · simp [(hidle c' d' he hd').2] at hdd
  · intro c' d' hd' hp
    by_cases he : c' = c
    · subst he
      cases hself.symm.trans hd'
      exact hpresent hp
    · simp [(hidle c' d' he hd').1] at hp
  · intro hall
    exact hsettled (hall c d (by rw [hlock, hc]) hself)

/-- Changing the owner of a lock that nobody holds. -/
theorem Inv.relock {eid' : Eid} (h : Inv eid s) (hnot : ∀ c, s.lock eid' ≠ .held c) (l : Hold) :
    Inv eid { s with lock := update s.lock eid' l } := by
  by_cases he : eid' = eid
  · subst he
    have hnone : ∀ c d, s.cache c eid' = some d → d.isPresent = false ∧ d.isDirty = false :=
      fun c d hd => h.idle c d (hnot c) hd
    refine ⟨h.stored, fun c d _ hd => hnone c d hd, h.dirty, h.present, fun _ => ?_, h.gets⟩
    exact h.settled fun c d hl => absurd hl (hnot c)
  · refine h.congr rfl (fun _ => rfl) ?_ rfl h.gets
    exact update_of_ne (Ne.symm he) _ _

/-! ## One step -/

/-- A call on extent `eid'` writes one entry of one cache, so the
invariant of another extent does not see it. -/
theorem Inv.frame {eid' : Eid} {c : Client} {d : FileData} (h : Inv eid s) (hne : eid ≠ eid')
    (hcache : s'.cache = s.setCache c ((s.cache c).set eid' d))
    (hsrv : Server.contents s'.srv eid = Server.contents s.srv eid)
    (hlock : s'.lock eid = s.lock eid) (hlatest : s'.latest eid = s.latest eid)
    (hgets : ∀ g ∈ s'.gets, g.eid = eid → g ∈ s.gets) : Inv eid s' := by
  refine h.congr hsrv ?_ hlock hlatest fun g hg hge => h.gets g (hgets g hg hge) hge
  intro c'
  rw [hcache]
  by_cases hc : c' = c
  · subst hc; simp [Sys.setCache, Cache.set_of_ne hne]
  · simp [Sys.setCache, hc]

/-! What each call leaves behind, whatever its outcome: one entry of the
cache, and unchanged contents at the server. -/

theorem get_shape (now : Nat) (fb : FileBlock) (ca : Cache) (eid : Eid) (buf : Bytes) :
    (∃ d, (ca.get (Rpc.direct now) now fb eid buf).2.1 = ca.set eid d) ∧
      ∀ e, Server.contents (ca.get (Rpc.direct now) now fb eid buf).2.2 e
        = Server.contents fb e := by
  cases hp : (ca.entry eid).isPresent with
  | true => rw [Cache.get_hit now fb buf hp]; exact ⟨⟨_, rfl⟩, fun _ => rfl⟩
  | false =>
    rw [Cache.get_miss now fb buf hp]
    exact ⟨⟨_, rfl⟩, fun e => by simp [Rpc.direct]⟩

theorem getattr_shape (now : Nat) (fb : FileBlock) (ca : Cache) (eid : Eid) (attr : Attr) :
    (ca.getattr (Rpc.direct now) fb eid attr).2.1 = ca.set eid (ca.entry eid) ∧
      ∀ e, Server.contents (ca.getattr (Rpc.direct now) fb eid attr).2.2 e
        = Server.contents fb e := by
  cases hp : (ca.entry eid).isPresent <;> simp [Cache.getattr, hp, Rpc.direct]

section Step

variable {eid eid' : Eid} {s s' : Sys} {c : Client}

theorem inv_acquire (h : Inv eid s) (hs : step s (.acquire c eid') = some s') : Inv eid s' := by
  obtain ⟨hfree, rfl⟩ := of_guard hs
  exact h.relock (by simp [hfree]) _

theorem inv_release (h : Inv eid s) (hs : step s (.release c eid') = some s') : Inv eid s' := by
  obtain ⟨hret, rfl⟩ := of_guard hs
  exact h.relock (by simp [hret]) _

/-- While the holder is clean the server has the latest put. -/
theorem Inv.upToDate (h : Inv eid s) (hc : s.lock eid = .held c)
    (hclean : ((s.cache c).entry eid).isDirty = false) :
    Server.contents s.srv eid = some (s.latest eid) := by
  apply h.settled
  intro c' d hl hd
  obtain rfl : c = c' := by simpa [hc] using hl
  simpa [Cache.entry, hd] using hclean

/-- The holder's `get` returns the latest put and makes it present. -/
theorem get_spec (h : Inv eid s) (hc : s.lock eid = .held c) (now : Nat) (buf : Bytes) :
    ((s.cache c).get (Rpc.direct now) now s.srv eid buf).1 = (.OK, s.latest eid) ∧
      ∃ d, ((s.cache c).get (Rpc.direct now) now s.srv eid buf).2.1 = (s.cache c).set eid d ∧
        d.isPresent = true ∧ d.content = s.latest eid ∧
        d.isDirty = ((s.cache c).entry eid).isDirty := by
  cases hp : ((s.cache c).entry eid).isPresent with
  | true =>
    -- a hit: the entry exists, and what is present is the latest put
    have hcont : ((s.cache c).entry eid).content = s.latest eid := by
      cases hca : s.cache c eid with
      | none => simp [Cache.entry, hca, FileData.new] at hp
      | some d =>
        simp only [Cache.entry, hca, Option.getD_some] at hp ⊢
        exact h.present c d hca hp
    rw [Cache.get_hit now s.srv buf hp]
    exact ⟨by rw [hcont], _, rfl, hp, hcont, rfl⟩
  | false =>
    -- a miss: not present, hence not dirty, so the server is up to date
    have hclean : ((s.cache c).entry eid).isDirty = false := by
      cases hca : s.cache c eid with
      | none => simp [Cache.entry, hca, FileData.new]
      | some d =>
        simp only [Cache.entry, hca, Option.getD_some] at hp ⊢
        by_contra hne
        simp [h.dirty c d hca (by simpa using hne)] at hp
    have hcur := h.upToDate hc hclean
    have hget := Server.get_of_contents now hcur
    have hattr : (Server.getattr (Server.get s.srv now eid).2 eid).1.1 = .OK :=
      Server.getattr_of_contents (d := s.latest eid) (by simpa using hcur)
    rw [Cache.get_miss now s.srv buf hp]
    simp only [Rpc.direct, hget, hattr, Option.getD_some]
    exact ⟨trivial, _, rfl, rfl, rfl, rfl⟩

theorem inv_get {now : Nat} {buf : Bytes} (h : Inv eid s)
    (hs : step s (.get c eid' now buf) = some s') : Inv eid s' := by
  obtain ⟨hc, rfl⟩ := of_guard hs
  have hsrv := (get_shape now s.srv (s.cache c) eid' buf).2
  by_cases he : eid = eid'
  · subst he
    obtain ⟨hret, d, hca, hdp, hdc, hdd⟩ := get_spec h hc now buf
    refine h.of_holder (d := d) hc rfl ?_ ?_ ?_ (fun _ => hdp) (fun _ => hdc) ?_ ?_
    · simp [Sys.setCache, hca]
    · intro c' hne; simp [Sys.setCache, hne]
    · simpa [hsrv] using h.stored
    · intro hnd
      simpa [hsrv] using h.upToDate hc (hdd.symm.trans hnd)
    · intro g hg hge
      simp only [List.mem_cons] at hg
      rcases hg with rfl | hg
      · simp [hret]
      · exact h.gets g hg hge
  · obtain ⟨d, hca⟩ := (get_shape now s.srv (s.cache c) eid' buf).1
    refine h.frame (c := c) (d := d) he (by simp [hca]) (hsrv eid) rfl rfl ?_
    intro g hg hge
    simp only [List.mem_cons] at hg
    rcases hg with rfl | hg
    · exact absurd hge.symm he
    · exact hg

theorem inv_getattr {now : Nat} {attr : Attr} (h : Inv eid s)
    (hs : step s (.getattr c eid' now attr) = some s') : Inv eid s' := by
  obtain ⟨hc, rfl⟩ := of_guard hs
  obtain ⟨hca, hsrv⟩ := getattr_shape now s.srv (s.cache c) eid' attr
  by_cases he : eid = eid'
  · subst he
    -- the entry is what it was, or the default one: clean and not present
    have hent : ∀ d, s.cache c eid = some d → (s.cache c).entry eid = d := by
      intro d hd; simp [Cache.entry, hd]
    refine h.of_holder (d := (s.cache c).entry eid) hc rfl ?_ ?_ ?_ ?_ ?_ ?_ h.gets
    · simp [Sys.setCache, hca]
    · intro c' hne; simp [Sys.setCache, hne]
    · simpa [hsrv] using h.stored
    · intro hd
      cases hce : s.cache c eid with
      | none => simp [Cache.entry, hce, FileData.new] at hd
      | some d => rw [hent d hce] at hd ⊢; exact h.dirty c d hce hd
    · intro hd
      cases hce : s.cache c eid with
      | none => simp [Cache.entry, hce, FileData.new] at hd
      | some d => rw [hent d hce] at hd ⊢; exact h.present c d hce hd
    · intro hnd
      simpa [hsrv] using h.upToDate hc hnd
  · exact h.frame (c := c) (d := (s.cache c).entry eid') he (by simp [hca]) (hsrv eid) rfl rfl
      (fun g hg _ => hg)

theorem inv_put {now : Nat} {buf : Bytes} (h : Inv eid s)
    (hs : step s (.put c eid' now buf) = some s') : Inv eid s' := by
  obtain ⟨hc, rfl⟩ := of_guard hs
  by_cases he : eid = eid'
  · subst he
    refine h.of_holder (c := c) hc rfl (d := ((s.cache c).put now eid buf).2.entry eid)
      ?_ ?_ h.stored ?_ ?_ ?_ h.gets
    · simp [Sys.setCache, Cache.put, Cache.entry]
    · intro c' hne; simp [Sys.setCache, hne]
    · simp [Cache.put, Cache.entry]
    · simp [Cache.put, Cache.entry]
    · simp [Cache.put, Cache.entry]
  · refine h.frame (c := c) he rfl rfl rfl ?_ (fun g hg _ => hg)
    exact update_of_ne he _ _

theorem inv_dorelease {now : Nat} (h : Inv eid s)
    (hok : FlushFindsEntry eid s (.dorelease c eid' now))
    (hs : step s (.dorelease c eid' now) = some s') : Inv eid s' := by
  obtain ⟨hc, rfl⟩ := of_guard hs
  by_cases he : eid = eid'
  · subst he
    obtain ⟨d, hd⟩ := Option.isSome_iff_exists.mp (hok rfl)
    obtain ⟨hca, hsrv⟩ := Cache.flush_spec now s.srv hd
    -- the contents after the flush: the dirty ones, or those the server had
    have hcur : Server.contents ((s.cache c).flush (Rpc.direct now) s.srv eid).2.2 eid
        = some (s.latest eid) := by
      rw [hsrv]
      cases hdd : d.isDirty with
      | true => simp [h.present c d hd (h.dirty c d hd hdd)]
      | false => simpa using h.upToDate hc (by simpa [Cache.entry, hd] using hdd)
    have hall : ∀ c' d', s.setCache c
        ((s.cache c).flush (Rpc.direct now) s.srv eid).2.1 c' eid = some d' →
        d'.isPresent = false ∧ d'.isDirty = false := by
      intro c' d' hd'
      by_cases hcc : c' = c
      · subst hcc
        rw [hca] at hd'
        simp only [Sys.setCache, update_self, Cache.set_self, Option.some.injEq] at hd'
        subst hd'
        exact ⟨rfl, rfl⟩
      · simp only [Sys.setCache, update_of_ne hcc] at hd'
        exact h.idle c' d' (by rw [hc]; simpa using Ne.symm hcc) hd'
    refine ⟨by simp [hcur], fun c' d' _ => hall c' d', ?_, ?_, fun _ => hcur, h.gets⟩
    · intro c' d' hd' hdd
      simp [(hall c' d' hd').2] at hdd
    · intro c' d' hd' hp
      simp [(hall c' d' hd').1] at hp
  · -- the flush of another extent, whether or not it finds an entry
    have hother : ∀ e, e ≠ eid' → Server.contents
        ((s.cache c).flush (Rpc.direct now) s.srv eid').2.2 e = Server.contents s.srv e ∧
        ((s.cache c).flush (Rpc.direct now) s.srv eid').2.1 e = s.cache c e := by
      intro e hne
      cases hce : s.cache c eid' with
      | none => simp [Cache.flush_absent s.srv hce, Rpc.direct, hne]
      | some d =>
        obtain ⟨hca, hsrv⟩ := Cache.flush_spec now s.srv hce
        simp [hca, hsrv, hne, Cache.set_of_ne]
    refine h.congr (hother eid he).1 ?_ (update_of_ne he _ _) rfl h.gets
    intro c'
    by_cases hcc : c' = c
    · subst hcc; simpa [Sys.setCache] using (hother eid he).2
    · simp [Sys.setCache, hcc]

theorem inv_step {e : Event} (h : Inv eid s) (hok : FlushFindsEntry eid s e)
    (hs : step s e = some s') : Inv eid s' := by
  cases e with
  | acquire c eid' => exact inv_acquire h hs
  | get c eid' now buf => exact inv_get h hs
  | getattr c eid' now attr => exact inv_getattr h hs
  | put c eid' now buf => exact inv_put h hs
  | dorelease c eid' now => exact inv_dorelease h hok hs
  | release c eid' => exact inv_release h hs

/-- A flush that finds no entry removes the extent from the server. -/
theorem not_coherent_of_flush_absent {e : Event} (hs : step s e = some s')
    (hbad : ¬ FlushFindsEntry eid s e) : ¬ Coherent eid s' := by
  cases e with
  | dorelease c eid' now =>
    simp only [FlushFindsEntry, Classical.not_imp, Bool.not_eq_true, Option.isSome_eq_false_iff,
      Option.isNone_iff_eq_none] at hbad
    obtain ⟨rfl, habs⟩ := hbad
    obtain ⟨_, rfl⟩ := of_guard hs
    rintro ⟨hsome, -⟩
    simp only [Cache.flush_absent s.srv habs, Rpc.direct, Server.remove] at hsome
    cases hfb : s.srv eid' <;> simp [hfb] at hsome
  | _ => exact absurd trivial hbad

end Step

/-! ## Whole runs -/

/-- **Coherence, exactly.** For every run on an extent that exists at
the start: the extent stays on the server and every `get` returns the
most recent put, all along the run, exactly when each flush of the
extent finds an entry in the cache of the client that flushes. -/
theorem coherent_iff_flush_finds_entry (fb : FileBlock) (eid : Eid)
    (hex : (fb eid).isSome = true) (es : List Event)
    (hrun : (exec step (Sys.init fb) es).isSome = true) :
    Always step (Coherent eid) (Sys.init fb) es ↔
      EveryStep step (FlushFindsEntry eid) (Sys.init fb) es :=
  always_iff_everyStep (fun _ _ _ h hok hs => inv_step h hok hs) (fun _ h => h.coherent)
    (fun _ _ _ _ hs hbad => not_coherent_of_flush_absent hs hbad) es _ (inv_init hex) hrun

/-- The server's `file_block_` after `extent_server::extent_server`: the
root extent with empty contents. -/
def bootBlock : FileBlock := (Server.put (fun _ => none) 0 1 []).2

def putThenGet : List Event :=
  [.acquire 0 1, .put 0 1 5 [7], .dorelease 0 1 6, .release 0 1, .acquire 1 1, .get 1 1 8 []]

theorem coherent_putThenGet :
    (bootBlock 1).isSome = true ∧ Always step (Coherent 1) (Sys.init bootBlock) putThenGet := by
  refine ⟨by decide, (coherent_iff_flush_finds_entry bootBlock 1 (by decide) putThenGet
    (by decide)).mpr ?_⟩
  refine ⟨trivial, fun s₁ h₁ => ⟨trivial, fun s₂ h₂ => ⟨fun _ => ?_, fun s₃ h₃ =>
    ⟨trivial, fun s₄ h₄ => ⟨trivial, fun s₅ h₅ => ⟨trivial, fun s₆ _ => trivial⟩⟩⟩⟩⟩⟩
  cases h₁; cases h₂
  decide

/-- The section with no call in it: client 0 takes the lock of the root
extent and gives it back, and the extent is gone. -/
theorem coherence_lost_by_empty_section :
    ¬ ∀ (fb : FileBlock) (eid : Eid) (es : List Event), (fb eid).isSome = true →
      (exec step (Sys.init fb) es).isSome = true →
      Always step (Coherent eid) (Sys.init fb) es := by
  intro h
  have hrun := h bootBlock 1 [.acquire 0 1, .dorelease 0 1 5] (by decide) (by decide)
  have hlast := (hrun.2 _ rfl).2 _ rfl
  exact absurd hlast.1 (by decide)

end Yfs.Extent
