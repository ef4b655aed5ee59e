/-
Yfs.Lock.Transfer — the state of a lock server on its way to another one,
and what becomes of requests that are served again on either side
(lock_server_cache_rsm.cc).

`marshal_state` and `unmarshal_state` are two loops written by hand. The
second is `Replica.unmarshalState`; it reads the bytes of each lock in the
order the first writes them (`decodes_getItem`), so a state that could be
marshalled at all arrives (`unmarshalState_marshalState`), whatever was at
the receiver. A buffer cannot grow past `2³¹` bytes, and up to `2³⁰` it
always can (`state_transfer`).

The second half runs a server with a log of what it granted and freed. The
log is not part of the server. `lock_info_[id]` is the xid of the last
grant to `id` and `user_id` is the last client that got the lock, also
after a transfer; that is all the replays need (`replays_harmless`).
-/
import Yfs.Lock.Replica
import Yfs.Wire.RsmCall

namespace Yfs.Lock.Replicated

open Yfs.Decode Yfs.Wire Yfs.Run
open Yfs.Lock.Rsm (Answer)

/-! ## unmarshal_state -/

/-- One turn of the loop of `unmarshal_state`. The entry may be there
already; a user id that cannot be read leaves the one it has. -/
def getItem (m : OrdMap LockId CondLockCacheRSM) : Get (OrdMap LockId CondLockCacheRSM) := do
  let lockid ← Ty.get .ull
  let lockItem := (m.find? lockid).getD CondLockCacheRSM.new
  let isLocked ← Ty.get .bool
  let lid ← Ty.get .ull
  let userId ← into (Ty.get .string) lockItem.userId
  let lockInfo ← Ty.get (.map .string .ull)
  let waitRetryQueue ← Ty.get (.vec .string)
  let waitRevokeQueue ← Ty.get (.vec .string)
  pure (m.insert lockid ⟨isLocked, lockInfo, waitRetryQueue, waitRevokeQueue, lid, userId⟩)

def getLocks : Get (OrdMap LockId CondLockCacheRSM) := do
  let lockSize ← getUint
  iterate getItem lockSize.toNat OrdMap.empty

/-- `unmarshal_state`. The fifos are not touched. -/
def Replica.unmarshalState (memory : Nat → Byte) (r : Replica) (state : List Byte) :
    Option Replica :=
  (getLocks (Unmarshall.ofContent memory state)).map fun p => { r with mapLock := p.1 }

/-! ## The bytes of a state -/

def itemBytes (p : LockId × CondLockCacheRSM) : List Byte :=
  Ty.bytes .ull p.1 ++ (Ty.bytes .bool p.2.isLocked ++ (Ty.bytes .ull p.2.lid ++
    (Ty.bytes .string p.2.userId ++ (Ty.bytes (.map .string .ull) p.2.lockInfo ++
      (Ty.bytes (.vec .string) p.2.waitRetryQueue ++
        Ty.bytes (.vec .string) p.2.waitRevokeQueue)))))

def Replica.stateBytes (r : Replica) : List Byte :=
  bytes32 (BitVec.ofNat 32 r.mapLock.entries.length) ++ r.mapLock.entries.flatMap itemBytes

theorem writes_putItem (p : LockId × CondLockCacheRSM) : Writes (putItem p) (itemBytes p) :=
  (writes_put .ull _).andThen <| (writes_put .bool _).andThen <| (writes_put .ull _).andThen <|
    (writes_put .string _).andThen <| (writes_put (.map .string .ull) _).andThen <|
      (writes_put (.vec .string) _).andThen (writes_put (.vec .string) _)

theorem writes_state (r : Replica) :
    Writes (Put.andThen (putUint (BitVec.ofNat 32 r.mapLock.entries.length))
      (putList putItem r.mapLock.entries)) r.stateBytes :=
  (writes_putEach _).andThen (writes_putList fun p _ => writes_putItem p)

theorem itemBytes_pos (p : LockId × CondLockCacheRSM) : 0 < (itemBytes p).length := by
  have hkey := bytes_pos .ull p.1
  rw [itemBytes, List.length_append]
  omega

theorem sticky_getItem (m : OrdMap LockId CondLockCacheRSM) : Sticky (getItem m) :=
  (sticky_get .ull).bind fun _ => (sticky_get .bool).bind fun _ => (sticky_get .ull).bind fun _ =>
    ((sticky_get .string).into _).bind fun _ => (sticky_get (.map .string .ull)).bind fun _ =>
      (sticky_get (.vec .string)).bind fun _ => (sticky_get (.vec .string)).bind fun _ =>
        Sticky.pure _

/-- A turn of the loop reads what `marshal_state` wrote for a lock, into
whatever the map holds by then. -/
theorem decodes_getItem (m : OrdMap LockId CondLockCacheRSM) {p : LockId × CondLockCacheRSM}
    (hlen : (itemBytes p).length < intMax) :
    Decodes intMax (getItem m) (itemBytes p) (m.insert p.1 p.2) := by
  simp only [itemBytes, List.length_append] at hlen
  have hget : ∀ (t : Ty) (x : t.carrier), (t.bytes x).length < intMax →
    Decodes intMax t.get (t.bytes x) x := decodes_get le_rfl
  have hvec := sticky_get (.vec .string)
  have hmap := sticky_get (.map .string .ull)
  refine (hget .ull p.1 (by omega)).bind (fun _ => (sticky_get .bool).bind fun _ =>
    (sticky_get .ull).bind fun _ => ((sticky_get .string).into _).bind fun _ => hmap.bind fun _ =>
      hvec.bind fun _ => hvec.bind fun _ => Sticky.pure _) ?_
  refine (hget .bool p.2.isLocked (by omega)).bind (fun _ => (sticky_get .ull).bind fun _ =>
    ((sticky_get .string).into _).bind fun _ => hmap.bind fun _ => hvec.bind fun _ =>
      hvec.bind fun _ => Sticky.pure _) ?_
  refine (hget .ull p.2.lid (by omega)).bind (fun _ => ((sticky_get .string).into _).bind fun _ =>
    hmap.bind fun _ => hvec.bind fun _ => hvec.bind fun _ => Sticky.pure _) ?_
  refine ((hget .string p.2.userId (by omega)).into _).bind (fun _ => hmap.bind fun _ =>
    hvec.bind fun _ => hvec.bind fun _ => Sticky.pure _) ?_
  refine (hget (.map .string .ull) p.2.lockInfo (by omega)).bind (fun _ => hvec.bind fun _ =>
    hvec.bind fun _ => Sticky.pure _) ?_
  refine (hget (.vec .string) p.2.waitRetryQueue (by omega)).bind (fun _ => hvec.bind fun _ =>
    Sticky.pure _) ?_
  exact (hget (.vec .string) p.2.waitRevokeQueue (by omega)).map fun queue =>
    m.insert p.1 { p.2 with waitRevokeQueue := queue }

variable {r r' : Replica} {lid : LockId} {item : CondLockCacheRSM} {id : UserId} {xid : Xid}

/-- The whole state is read into an empty map. -/
theorem decodes_getLocks (hlen : r.stateBytes.length < intMax) :
    Decodes intMax getLocks r.stateBytes r.mapLock := by
  rw [Replica.stateBytes, List.length_append] at hlen
  have hbody : (r.mapLock.entries.flatMap itemBytes).length < intMax := by omega
  have hn : (BitVec.ofNat 32 r.mapLock.entries.length).toNat = r.mapLock.entries.length :=
    toNat_ofNat_length ((length_le_flatMap _ itemBytes_pos).trans_lt hbody)
  have hloop := Decodes.iterate sticky_getItem
    (fun acc p hp => decodes_getItem acc ((length_le_of_mem_flatMap hp).trans_lt hbody))
    OrdMap.empty
  rw [OrdMap.foldl_insert, ← hn] at hloop
  exact (decodes_uint _).bind (fun n => Sticky.iterate sticky_getItem _ _) hloop

/-! ## From one server to another -/

theorem marshalState_eq {memory : Nat → Byte} {state : List Byte}
    (h : r.marshalState memory = some state) :
    state = r.stateBytes ∧ rpcHeaderSz + r.stateBytes.length < intMax := by
  obtain ⟨m, hm, rfl⟩ := Option.map_eq_some_iff.mp h
  exact (writes_state r).str hm

/-- A state that was marshalled replaces the locks of the receiver. -/
theorem unmarshalState_marshalState {memory memory' : Nat → Byte} {sender : Replica}
    {state : List Byte} (h : sender.marshalState memory = some state) (receiver : Replica) :
    receiver.unmarshalState memory' state = some { receiver with mapLock := sender.mapLock } := by
  obtain ⟨rfl, hlen⟩ := marshalState_eq h
  have hdec : Decodes intMax getLocks sender.stateBytes sender.mapLock :=
    decodes_getLocks (by omega)
  have hrun := ofContent_run hdec memory' [] (by rwa [List.append_nil])
  rw [List.append_nil] at hrun
  rw [Replica.unmarshalState, hrun]
  rfl

/-- **Round trip.** A state of at most `2³⁰` bytes, with the header, is
marshalled, and the receiver then has the sender's locks and none of its
own. -/
theorem state_transfer (memory memory' : Nat → Byte) (sender receiver : Replica)
    (hsize : rpcHeaderSz + sender.stateBytes.length ≤ maxBuf) :
    ∃ state, sender.marshalState memory = some state ∧
      receiver.unmarshalState memory' state =
        some { receiver with mapLock := sender.mapLock } := by
  obtain ⟨m, hm⟩ := (writes_state sender).total _ (Marshall.ready_new memory) hsize
  have hstate : sender.marshalState memory = some m.str := by
    rw [Replica.marshalState, hm]
    rfl
  exact ⟨m.str, hstate, unmarshalState_marshalState hstate receiver⟩

def busy : Replica :=
  ((Replica.new.acquire (1 : BitVec 64) ([97] : List Byte) (1 : BitVec 64)).2.acquire
    (1 : BitVec 64) ([98] : List Byte) (1 : BitVec 64)).2

/-- Its state, at a receiver that holds another lock. -/
theorem state_transfer_busy :
    rpcHeaderSz + busy.stateBytes.length ≤ maxBuf ∧
    ∃ state receiver', busy.marshalState (fun _ => 0) = some state ∧
      (Replica.new.acquire (2 : BitVec 64) ([99] : List Byte) (1 : BitVec 64)).2.unmarshalState
        (fun _ => 0) state = some receiver' ∧ receiver'.mapLock = busy.mapLock := by
  have hsize : rpcHeaderSz + busy.stateBytes.length ≤ maxBuf := by decide +kernel
  obtain ⟨state, hstate, hread⟩ := state_transfer (fun _ => 0) (fun _ => 0) busy
    (Replica.new.acquire (2 : BitVec 64) ([99] : List Byte) (1 : BitVec 64)).2 hsize
  exact ⟨hsize, state, _, hstate, hread, rfl⟩

/-- **Not every state**: a server whose lock is held by a client with a
name of `2³¹` bytes does not marshal it. -/
theorem long_name_not_marshalled :
    ¬ ∀ (memory memory' : Nat → Byte) (sender receiver : Replica),
      ∃ state, sender.marshalState memory = some state ∧
        receiver.unmarshalState memory' state =
          some { receiver with mapLock := sender.mapLock } := by
  intro hall
  obtain ⟨name, hname⟩ : ∃ name : List Byte, name.length = intMax :=
    ⟨List.replicate intMax 0, List.length_replicate⟩
  let item : CondLockCacheRSM := { CondLockCacheRSM.new with isLocked := true, userId := name }
  let sender : Replica :=
    { Replica.new with mapLock := OrdMap.empty.insert (1 : BitVec 64) item }
  obtain ⟨state, hstate, -⟩ := hall (fun _ => 0) (fun _ => 0) sender Replica.new
  obtain ⟨-, hlen⟩ := marshalState_eq hstate
  have hitem : name.length ≤ (itemBytes ((1 : BitVec 64), item)).length := by
    have hle := length_le_bytesString name
    simp only [itemBytes, List.length_append]
    show name.length ≤ _ + (_ + (_ + ((bytesString name).length + _)))
    omega
  have hall : (itemBytes ((1 : BitVec 64), item)).length ≤
      (sender.mapLock.entries.flatMap itemBytes).length :=
    length_le_of_mem_flatMap (List.mem_singleton.mpr rfl)
  rw [Replica.stateBytes, List.length_append] at hlen
  omega

/-! ## What a request does to one lock -/

@[simp] theorem info_touch (item : CondLockCacheRSM) (id id' : UserId) :
    (item.touch id).info id' = item.info id' := by
  rw [CondLockCacheRSM.info, CondLockCacheRSM.touch, OrdMap.find?_insert]
  split
  · rename_i h
    subst h
    rfl
  · rfl

structure SameHold (item item' : CondLockCacheRSM) : Prop where
  isLocked : item'.isLocked = item.isLocked
  userId : item'.userId = item.userId
  info : ∀ id, item'.info id = item.info id

/-- `acquire` grants a free lock to an xid above the last one of the client,
or nothing happens to the hold. -/
theorem acquire_cases (item : CondLockCacheRSM) (lid : LockId) (id : UserId) (xid : Xid) :
    ((item.acquire lid id xid).1.r = 0 ∧ item.isLocked = false ∧ item.info id < xid ∧
      (item.acquire lid id xid).2.1.isLocked = true ∧ (item.acquire lid id xid).2.1.userId = id ∧
      ∀ id', (item.acquire lid id xid).2.1.info id' = if id' = id then xid else item.info id') ∨
    ((item.acquire lid id xid).1.r ≠ 0 ∧ SameHold item (item.acquire lid id xid).2.1) := by
  unfold CondLockCacheRSM.acquire
  dsimp only
  split
  · rename_i hnew
    rw [info_touch] at hnew
    split
    · rename_i hfree
      refine .inl ⟨rfl, hfree, hnew, rfl, rfl, fun id' => ?_⟩
      rw [CondLockCacheRSM.info, OrdMap.find?_insert]
      split
      · rfl
      · exact info_touch item id id'
    · exact .inr ⟨by simp, rfl, rfl, info_touch item id⟩
  · exact .inr ⟨by simp, rfl, rfl, info_touch item id⟩

/-- `release` frees a lock held by the client that asks, with an xid not
below the last grant to it, or nothing happens to the hold. -/
theorem release_cases (item : CondLockCacheRSM) (id : UserId) (xid : Xid) :
    (item.isLocked = true ∧ item.userId = id ∧ item.info id ≤ xid ∧
      (item.release id xid).1.isLocked = false ∧
      ∀ id', (item.release id xid).1.info id' = item.info id') ∨
    SameHold item (item.release id xid).1 := by
  unfold CondLockCacheRSM.release
  dsimp only
  split
  · rename_i hheld
    rw [info_touch] at hheld
    by_cases hid : item.userId = id
    · exact .inl ⟨hheld.2, hid, hheld.1, if_pos hid, info_touch item id⟩
    · exact .inr ⟨if_neg hid, rfl, info_touch item id⟩
  · exact .inr ⟨rfl, rfl, info_touch item id⟩

theorem item_insert (h : r'.mapLock = r.mapLock.insert lid item) (l : LockId) :
    r'.item l = if l = lid then item else r.item l := by
  rw [Replica.item, h, OrdMap.find?_insert]
  split
  · rfl
  · rfl

/-- A release that comes back has changed the lock it names and
`retry_queue_`. -/
theorem release_eq {a : Answer} (h : r.release lid id xid = some (a, r')) :
    r' = { r.setItem lid ((r.item lid).release id xid).1 with
      retryQueue := if ((r.item lid).release id xid).2 then r.retryQueue ++ [lid]
        else r.retryQueue } := by
  unfold Replica.release at h
  split at h
  · exact (Prod.mk.inj (Option.some.inj h)).2.symm
  · cases h

/-! ## A server and what it did -/

inductive Done where
  | granted (lid : LockId) (id : UserId) (xid : Xid)
  | freed (lid : LockId) (id : UserId) (xid : Xid)
  deriving DecidableEq

/-- Who holds a lock, and under which acquire, after what is in the log
(the last entry first). -/
def holder : List Done → LockId → Option (UserId × Xid)
  | [], _ => none
  | .granted lid id xid :: log, l => if l = lid then some (id, xid) else holder log l
  | .freed lid _ _ :: log, l => if l = lid then none else holder log l

/-- No acquire was granted twice or for a held lock, and each release that
freed a lock came from its holder, not before the acquire it held it
under. -/
def Harmless : List Done → Prop
  | [] => True
  | .granted lid id xid :: log =>
    Done.granted lid id xid ∉ log ∧ holder log lid = none ∧ Harmless log
  | .freed lid id xid :: log => (∃ x, holder log lid = some (id, x) ∧ x ≤ xid) ∧ Harmless log

structure Served where
  replica : Replica
  log : List Done

/-- A request, new or not, is executed; or the state goes to another
server, in whatever state that one is. -/
inductive Served.Event where
  | request (q : Request)
  | transfer (memory memory' : Nat → Byte) (receiver : Replica)

def Served.step (s : Served) : Served.Event → Option Served
  | .request (.acquire lid id xid) =>
    let a := s.replica.acquire lid id xid
    some ⟨a.2, if a.1.r = 0 then .granted lid id xid :: s.log else s.log⟩
  | .request (.release lid id xid) =>
    (s.replica.release lid id xid).map fun a =>
      ⟨a.2, if (s.replica.item lid).isLocked = true ∧ (a.2.item lid).isLocked = false
        then .freed lid id xid :: s.log else s.log⟩
  | .transfer memory memory' receiver =>
    (s.replica.marshalState memory).bind fun state =>
      (receiver.unmarshalState memory' state).map fun r => ⟨r, s.log⟩

def Served.new : Served := ⟨Replica.new, []⟩

/-! ## The server knows its log -/

/-- `is_locked`, `user_id` and `lock_info_` are what the log says. -/
structure Tracks (r : Replica) (log : List Done) : Prop where
  held : ∀ lid, holder log lid = if (r.item lid).isLocked = true
    then some ((r.item lid).userId, (r.item lid).info (r.item lid).userId) else none
  last : ∀ lid id xid, Done.granted lid id xid ∈ log → xid ≤ (r.item lid).info id

variable {log : List Done} {s s' : Served}

/-- Only the map counts, and in it only the hold of each lock. -/
theorem Tracks.of_sameHold (h : Tracks r log) (hsame : ∀ lid, SameHold (r.item lid) (r'.item lid)) :
    Tracks r' log := by
  constructor
  · intro lid
    rw [h.held lid, (hsame lid).isLocked, (hsame lid).userId, (hsame lid).info]
  · intro lid id xid hmem
    rw [(hsame lid).info]
    exact h.last lid id xid hmem

theorem SameHold.refl (item : CondLockCacheRSM) : SameHold item item := ⟨rfl, rfl, fun _ => rfl⟩

theorem sameHold_insert (h : r'.mapLock = r.mapLock.insert lid item)
    (hsame : SameHold (r.item lid) item) (l : LockId) : SameHold (r.item l) (r'.item l) := by
  rw [item_insert h]
  split
  · rename_i hl
    exact hl ▸ hsame
  · exact SameHold.refl _

/-- A grant: the lock was free, and the xid is above those of all grants
before it to this client. -/
theorem Tracks.granted (h : Tracks r log) (hmap : r'.mapLock = r.mapLock.insert lid item)
    (hnew : (r.item lid).info id < xid) (hlocked : item.isLocked = true)
    (huser : item.userId = id)
    (hinfo : ∀ id', item.info id' = if id' = id then xid else (r.item lid).info id') :
    Tracks r' (.granted lid id xid :: log) := by
  constructor
  · intro l
    rw [item_insert hmap, holder]
    split
    · simp [huser, hinfo]
    · exact h.held l
  · intro l id' x hmem
    rw [item_insert hmap]
    split
    · rename_i hl
      rw [hinfo]
      rcases List.mem_cons.mp hmem with heq | hold
      · obtain ⟨-, rfl, rfl⟩ := Done.granted.inj heq
        rw [if_pos rfl]
      · have hle := h.last l id' x hold
        rw [hl] at hle
        split
        · rename_i hid
          exact (hid ▸ hle).trans hnew.le
        · exact hle
    · rename_i hl
      rcases List.mem_cons.mp hmem with heq | hold
      · exact absurd (Done.granted.inj heq).1 hl
      · exact h.last l id' x hold

theorem Tracks.freed (h : Tracks r log) (hmap : r'.mapLock = r.mapLock.insert lid item)
    (hfree : item.isLocked = false) (hinfo : ∀ id, item.info id = (r.item lid).info id)
    (id : UserId) (xid : Xid) : Tracks r' (.freed lid id xid :: log) := by
  constructor
  · intro l
    rw [item_insert hmap, holder]
    split
    · simp [hfree]
    · exact h.held l
  · intro l id' x hmem
    have hle := h.last l id' x (by simpa using hmem)
    rw [item_insert hmap]
    split
    · rename_i hl
      rw [hinfo, ← hl]
      exact hle
    · exact hle

/-! ## Replays -/

def Served.Good (s : Served) : Prop := Tracks s.replica s.log ∧ Harmless s.log

theorem good_acquire (h : s.Good) (hstep : s.step (.request (.acquire lid id xid)) = some s') :
    s'.Good := by
  cases hstep
  obtain ⟨htracks, hharmless⟩ := h
  have hmap : (s.replica.acquire lid id xid).2.mapLock =
    s.replica.mapLock.insert lid ((s.replica.item lid).acquire lid id xid).2.1 := rfl
  rcases acquire_cases (s.replica.item lid) lid id xid with
    ⟨hr, hfree, hnew, hlocked, huser, hinfo⟩ | ⟨hr, hsame⟩
  · have hgrant : (s.replica.acquire lid id xid).1.r = 0 := hr
    simp only [Served.Good, hgrant, if_true]
    refine ⟨htracks.granted hmap hnew hlocked huser hinfo, ?_, ?_, hharmless⟩
    · -- an earlier grant would have raised `lock_info_[id]` to this xid
      intro hmem
      exact absurd hnew (not_lt.mpr (htracks.last lid id xid hmem))
    · simp [htracks.held lid, hfree]
  · have hno : (s.replica.acquire lid id xid).1.r ≠ 0 := hr
    simp only [Served.Good, hno, if_false]
    exact ⟨htracks.of_sameHold (sameHold_insert hmap hsame), hharmless⟩

theorem good_release (h : s.Good) (hstep : s.step (.request (.release lid id xid)) = some s') :
    s'.Good := by
  obtain ⟨⟨a, r'⟩, hrel, rfl⟩ := Option.map_eq_some_iff.mp hstep
  obtain ⟨htracks, hharmless⟩ := h
  unfold Replica.release at hrel
  split at hrel
  · obtain ⟨-, hr'⟩ := Prod.mk.inj (Option.some.inj hrel)
    have hmap : r'.mapLock =
        s.replica.mapLock.insert lid ((s.replica.item lid).release id xid).1 := by
      rw [← hr']
      rfl
    have hitem := item_insert hmap lid
    rw [if_pos rfl] at hitem
    rcases release_cases (s.replica.item lid) id xid with ⟨hheld, huser, hle, hfree, hinfo⟩ | hsame
    · have hfreed : (s.replica.item lid).isLocked = true ∧ (r'.item lid).isLocked = false :=
        ⟨hheld, hitem ▸ hfree⟩
      simp only [Served.Good, hfreed, and_self, if_true]
      refine ⟨htracks.freed hmap hfree hinfo id xid, ⟨_, ?_, hle⟩, hharmless⟩
      rw [htracks.held lid, if_pos hheld, huser]
    · have hkept : ¬ ((s.replica.item lid).isLocked = true ∧ (r'.item lid).isLocked = false) := by
        rw [hitem, hsame.isLocked]
        simp
      simp only [Served.Good, hkept, if_false]
      exact ⟨htracks.of_sameHold (sameHold_insert hmap hsame), hharmless⟩
  · cases hrel

theorem good_step {e : Served.Event} (h : s.Good) (hstep : s.step e = some s') : s'.Good := by
  cases e with
  | request q =>
    cases q with
    | acquire lid id xid => exact good_acquire h hstep
    | release lid id xid => exact good_release h hstep
  | transfer memory memory' receiver =>
    obtain ⟨state, hstate, hread⟩ := Option.bind_eq_some_iff.mp hstep
    rw [unmarshalState_marshalState hstate] at hread
    cases hread
    exact ⟨h.1.of_sameHold fun _ => SameHold.refl _, h.2⟩

/-- **Replays.** Whatever requests are served in whatever order and number,
with any transfers between them, no acquire is granted twice or for a held
lock, and a release frees only what its sender holds under an acquire with
no greater xid. -/
theorem replays_harmless {s : Served} (h : Reach Served.step (fun _ _ => True) Served.new s) :
    Harmless s.log := by
  have hgood : s.Good := by
    have hnew : Served.new.Good := ⟨⟨fun _ => rfl, fun _ _ _ hmem => by cases hmem⟩, trivial⟩
    exact Reach.invariant Served.Good hnew (fun _ _ _ hs _ hstep => good_step hs hstep) h
  exact hgood.2

/-- A client takes lock 1, gives it back and takes it again; in between and
after a transfer, its first requests come again. -/
def replayed : List Served.Event :=
  let acquire (xid : BitVec 64) : Served.Event :=
    .request (.acquire (1 : BitVec 64) ([97] : List Byte) xid)
  let release (xid : BitVec 64) : Served.Event :=
    .request (.release (1 : BitVec 64) ([97] : List Byte) xid)
  [acquire 1, acquire 1, release 1, acquire 1, acquire 2, release 1,
    .transfer (fun _ => 0) (fun _ => 0) Replica.new, release 1, acquire 1, release 2, acquire 2]

/-- Two of its acquires are granted and each is released once. -/
theorem replays_harmless_replayed :
    ∃ s, Reach Served.step (fun _ _ => True) Served.new s ∧ Harmless s.log ∧
      s.log = [.freed (1 : BitVec 64) ([97] : List Byte) (2 : BitVec 64),
        .granted (1 : BitVec 64) ([97] : List Byte) (2 : BitVec 64),
        .freed (1 : BitVec 64) ([97] : List Byte) (1 : BitVec 64),
        .granted (1 : BitVec 64) ([97] : List Byte) (1 : BitVec 64)] := by
  exact (exists_reach replayed (by decide +kernel)).imp fun s ⟨hreach, hlog⟩ =>
    ⟨hreach, replays_harmless hreach, hlog⟩

end Yfs.Lock.Replicated
