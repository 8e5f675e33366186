import SystemProgramming.Library.Permits
import SystemProgramming.ProxyLab.CacheList

/-!
# The cache of `cache.c`, with any number of threads

Each thread calls `find_cache_block` and `add_cache_block` as often as it likes. Its position is the
next semaphore operation, the probe loop, the test of the loop that evicts, `dequeue` or `enqueue`;
what the code does between two of these belongs to the step before. A `sem_wait` is a step only when
the semaphore is positive.

`find_cache_block` returns from the probe loop when it has found the block, and then the thread
leaves neither `readcnt` nor `w`.
-/

set_option autoImplicit false
set_option relaxedAutoImplicit false

namespace SystemProgramming.ProxyLab

open Library

/-- `MAX_CONTENT_SIZE`. -/
def maxContentSize : Int := 200000

/-- `MAX_OBJECT_SIZE`. -/
def maxObjectSize : Int := 1000000

/-- The arguments of `add_cache_block`. -/
structure Item where
  uri : Bytes
  response : Bytes
  content : Bytes
  contentLength : Int
  deriving DecidableEq, Repr

/-- A call of `find_cache_block`, from outside or from `add_cache_block`. -/
inductive Call
  | find (uri : Bytes)
  | add (item : Item)
  deriving DecidableEq, Repr

/-- The uri that `find_cache_block` looks for. -/
def Call.uri : Call → Bytes
  | find uri => uri
  | add item => item.uri

/-- Where a thread is: in neither function; in `find_cache_block`, before `sem_wait(&mutex)`,
`sem_wait(&w)` and `sem_post(&mutex)`, before the probe loop, and before `sem_wait(&mutex)`,
`sem_post(&w)` and `sem_post(&mutex)`; in `add_cache_block`, before `sem_wait(&w)` and the test of
the loop; in `cache_replacement_policy`, before `sem_wait(&w)`, `dequeue` and `sem_post(&w)`; and
before `enqueue` and `sem_post(&w)`. -/
inductive Position
  | idle
  | findMutex (c : Call)
  | findW (c : Call)
  | findPost (c : Call)
  | probing (c : Call)
  | missMutex (c : Call)
  | missW (c : Call)
  | missPost (c : Call)
  | addW (item : Item)
  | addTest (item : Item)
  | evictW (item : Item)
  | evict (item : Item)
  | evictPost (item : Item)
  | addEnqueue (item : Item)
  | addPost (item : Item)
  deriving DecidableEq, Repr

/-- Where a call begins. A content that is too large is freed. -/
def Call.begin : Call → Position
  | find uri => .findMutex (.find uri)
  | add item => if item.contentLength > maxContentSize then .idle else .findMutex (.add item)

/-- Where a call goes on when `find_cache_block` has returned the null pointer. -/
def Call.missed : Call → Position
  | find _ => .idle
  | add item => .addW item

/-- The list with the variables of `cache.c`, the semaphores, and the threads. -/
structure Cache (n : Nat) where
  list : CacheList
  size : Int
  readcnt : Int
  mutex : Nat
  w : Nat
  threads : Fin n → Position

/-- The cache as the proxy starts. -/
def Cache.start (n : Nat) : Cache n := ⟨.empty, 0, 0, 1, 1, fun _ ↦ .idle⟩

/-- What happens in a step. -/
inductive CacheEvent (n : Nat)
  | call (t : Fin n) (c : Call)
  | wait (t : Fin n)
  | post (t : Fin n)
  | probe (t : Fin n) (uri : Bytes) (found : Nat)
  | test (t : Fin n)
  | evict (t : Fin n)
  | enqueue (t : Fin n) (uri : Bytes) (newnode : Nat)
  deriving DecidableEq, Repr

/-- The thread that steps. -/
def CacheEvent.thread {n : Nat} : CacheEvent n → Fin n
  | call t _ | wait t | post t | probe t _ _ | test t | evict t | enqueue t _ _ => t

/-- The steps of the threads. -/
inductive Cache.Step {n : Nat} : Cache n → CacheEvent n → Cache n → Prop
  | call {s : Cache n} (t : Fin n) (c : Call) (hposition : s.threads t = .idle) :
      Step s (.call t c) { s with threads := Function.update s.threads t c.begin }
  -- `find_cache_block`
  | findMutex {s : Cache n} {t : Fin n} {c : Call} (hposition : s.threads t = .findMutex c)
      (hmutex : 0 < s.mutex) : Step s (.wait t) { s with
        mutex := s.mutex - 1
        readcnt := s.readcnt + 1
        threads := Function.update s.threads t
          (if s.readcnt + 1 = 1 then .findW c else .findPost c) }
  | findW {s : Cache n} {t : Fin n} {c : Call} (hposition : s.threads t = .findW c)
      (hw : 0 < s.w) : Step s (.wait t) { s with
        w := s.w - 1
        threads := Function.update s.threads t (.findPost c) }
  | findPost {s : Cache n} {t : Fin n} {c : Call} (hposition : s.threads t = .findPost c) :
      Step s (.post t) { s with
        mutex := s.mutex + 1
        threads := Function.update s.threads t (.probing c) }
  | probe {s : Cache n} {t : Fin n} {c : Call} {found : Nat} (hposition : s.threads t = .probing c)
      (hfinds : s.list.Finds c.uri found) : Step s (.probe t c.uri found) { s with
        threads := Function.update s.threads t (if found = 0 then .missMutex c else .idle) }
  | missMutex {s : Cache n} {t : Fin n} {c : Call} (hposition : s.threads t = .missMutex c)
      (hmutex : 0 < s.mutex) : Step s (.wait t) { s with
        mutex := s.mutex - 1
        readcnt := s.readcnt - 1
        threads := Function.update s.threads t
          (if s.readcnt - 1 = 0 then .missW c else .missPost c) }
  | missW {s : Cache n} {t : Fin n} {c : Call} (hposition : s.threads t = .missW c) :
      Step s (.post t) { s with
        w := s.w + 1
        threads := Function.update s.threads t (.missPost c) }
  | missPost {s : Cache n} {t : Fin n} {c : Call} (hposition : s.threads t = .missPost c) :
      Step s (.post t) { s with
        mutex := s.mutex + 1
        threads := Function.update s.threads t c.missed }
  -- `add_cache_block`
  | addW {s : Cache n} {t : Fin n} {item : Item} (hposition : s.threads t = .addW item)
      (hw : 0 < s.w) : Step s (.wait t) { s with
        w := s.w - 1
        size := s.size + item.contentLength
        threads := Function.update s.threads t (.addTest item) }
  | addTest {s : Cache n} {t : Fin n} {item : Item} (hposition : s.threads t = .addTest item) :
      Step s (.test t) { s with
        threads := Function.update s.threads t
          (if s.size > maxObjectSize then .evictW item else .addEnqueue item) }
  | addEnqueue {s : Cache n} {t : Fin n} {item : Item} {newnode : Nat} {list : CacheList}
      (hposition : s.threads t = .addEnqueue item) (hnull : newnode ≠ 0)
      (hnew : s.list.blocks newnode = none)
      (henqueue : CacheList.enqueue newnode item.uri item.response item.content item.contentLength
        s.list = some ((), list)) : Step s (.enqueue t item.uri newnode) { s with
        list := list
        threads := Function.update s.threads t (.addPost item) }
  | addPost {s : Cache n} {t : Fin n} {item : Item} (hposition : s.threads t = .addPost item) :
      Step s (.post t) { s with
        w := s.w + 1
        threads := Function.update s.threads t .idle }
  -- `cache_replacement_policy`
  | evictW {s : Cache n} {t : Fin n} {item : Item} (hposition : s.threads t = .evictW item)
      (hw : 0 < s.w) : Step s (.wait t) { s with
        w := s.w - 1
        threads := Function.update s.threads t (.evict item) }
  | evict {s : Cache n} {t : Fin n} {item : Item} {reduce : Int} {list : CacheList}
      (hposition : s.threads t = .evict item)
      (hdequeue : CacheList.dequeue s.list = some (reduce, list)) : Step s (.evict t) { s with
        list := list
        size := s.size - reduce
        threads := Function.update s.threads t (.evictPost item) }
  | evictPost {s : Cache n} {t : Fin n} {item : Item} (hposition : s.threads t = .evictPost item) :
      Step s (.post t) { s with
        w := s.w + 1
        threads := Function.update s.threads t (.addTest item) }

/-- The states that the threads lead to. -/
abbrev Cache.Reached {n : Nat} (events : List (CacheEvent n)) (s : Cache n) : Prop :=
  Run (· = Cache.start n) Cache.Step events s

/-! ### Calls while no other thread is inside -/

/-- What `enqueue` leaves of the arguments of `add_cache_block`. -/
def CacheList.added (c : CacheList) (newnode : Nat) (item : Item) : CacheList :=
  c.enqueued newnode item.uri item.response item.content item.contentLength

namespace Cache

variable {n : Nat} {list : CacheList} {size : Int} {threads : Fin n → Position} {t : Fin n}

/-- What happens in `find_cache_block` when there is no block. -/
def missing (t : Fin n) (uri : Bytes) : List (CacheEvent n) :=
  [.wait t, .wait t, .post t, .probe t uri 0, .wait t, .post t, .post t]

/-- What happens in the rest of `add_cache_block` when nothing is evicted. -/
def inserting (t : Fin n) (uri : Bytes) (newnode : Nat) : List (CacheEvent n) :=
  [.wait t, .test t, .enqueue t uri newnode, .post t]

theorem find_miss {c : Call} (hposition : threads t = .findMutex c) (hfinds : list.Finds c.uri 0) :
    Steps Step ⟨list, size, 0, 1, 1, threads⟩ (missing t c.uri)
      ⟨list, size, 0, 1, 1, Function.update threads t c.missed⟩ := by
  have hsteps := Steps.cons (Step.findMutex (s := ⟨list, size, 0, 1, 1, threads⟩) hposition
    Nat.one_pos) <| .cons (.findW (Function.update_self _ _ _) Nat.one_pos) <|
    .cons (.findPost (Function.update_self _ _ _)) <|
    .cons (.probe (Function.update_self _ _ _) hfinds) <|
    .cons (.missMutex (Function.update_self _ _ _) Nat.one_pos) <|
    .cons (.missW (Function.update_self _ _ _)) <|
    .cons (.missPost (Function.update_self _ _ _)) .nil
  simp only [Function.update_idem] at hsteps
  exact hsteps

/-- `doit` looks for a uri that is not cached. -/
theorem lookup_miss (t : Fin n) (uri : Bytes) (hidle : threads t = .idle)
    (hfinds : list.Finds uri 0) :
    Steps Step ⟨list, size, 0, 1, 1, threads⟩ (.call t (.find uri) :: missing t uri)
      ⟨list, size, 0, 1, 1, threads⟩ := by
  have hsteps := Steps.cons (Step.call (s := ⟨list, size, 0, 1, 1, threads⟩) t (.find uri) hidle) <|
    find_miss (c := .find uri) (Function.update_self _ _ _) hfinds
  rw [Function.update_idem, Call.missed, ← hidle, Function.update_eq_self] at hsteps
  exact hsteps

/-- What happens in `find_cache_block` when there is a block. -/
def finding (t : Fin n) (uri : Bytes) (found : Nat) : List (CacheEvent n) :=
  [.wait t, .wait t, .post t, .probe t uri found]

theorem find_hit {c : Call} {found : Nat} (hposition : threads t = .findMutex c)
    (hfound : found ≠ 0) (hfinds : list.Finds c.uri found) :
    Steps Step ⟨list, size, 0, 1, 1, threads⟩ (finding t c.uri found)
      ⟨list, size, 1, 1, 0, Function.update threads t .idle⟩ := by
  have hsteps := Steps.cons (Step.findMutex (s := ⟨list, size, 0, 1, 1, threads⟩) hposition
    Nat.one_pos) <| .cons (.findW (Function.update_self _ _ _) Nat.one_pos) <|
    .cons (.findPost (Function.update_self _ _ _)) <|
    .cons (.probe (Function.update_self _ _ _) hfinds) .nil
  simp only [Function.update_idem, if_neg hfound] at hsteps
  exact hsteps

/-- `doit` looks for a uri that is cached. -/
theorem lookup_hit (t : Fin n) (uri : Bytes) (found : Nat) (hidle : threads t = .idle)
    (hfound : found ≠ 0)
    (hfinds : list.Finds uri found) : Steps Step ⟨list, size, 0, 1, 1, threads⟩
      (.call t (.find uri) :: finding t uri found) ⟨list, size, 1, 1, 0, threads⟩ := by
  have hsteps := Steps.cons (Step.call (s := ⟨list, size, 0, 1, 1, threads⟩) t (.find uri) hidle) <|
    find_hit (c := .find uri) (Function.update_self _ _ _) hfound hfinds
  rw [Function.update_idem, ← hidle, Function.update_eq_self] at hsteps
  exact hsteps

/-- `add_cache_block` finds that the uri is not cached. -/
theorem add_miss (t : Fin n) (item : Item) (hidle : threads t = .idle)
    (hcontent : item.contentLength ≤ maxContentSize) (hfinds : list.Finds item.uri 0) :
    Steps Step ⟨list, size, 0, 1, 1, threads⟩ (.call t (.add item) :: missing t item.uri)
      ⟨list, size, 0, 1, 1, Function.update threads t (.addW item)⟩ := by
  have hbegin : (Call.add item).begin = .findMutex (.add item) := if_neg (not_lt.mpr hcontent)
  have hsteps := Steps.cons (Step.call (s := ⟨list, size, 0, 1, 1, threads⟩) t (.add item) hidle) <|
    find_miss (c := .add item) ((Function.update_self _ _ _).trans hbegin) hfinds
  rw [Function.update_idem] at hsteps
  exact hsteps

/-- `add_cache_block` inserts the block. -/
theorem insert (t : Fin n) (item : Item) (newnode : Nat) {live : List Nat}
    (hlinked : list.Linked live) (hposition : threads t = .addW item)
    (hsize : size + item.contentLength ≤ maxObjectSize)
    (hnull : newnode ≠ 0) (hnew : list.blocks newnode = none) :
    Steps Step ⟨list, size, 0, 1, 1, threads⟩ (inserting t item.uri newnode)
      ⟨list.added newnode item, size + item.contentLength, 0, 1, 1,
        Function.update threads t .idle⟩ := by
  have hsmall : ¬ size + item.contentLength > maxObjectSize := not_lt.mpr hsize
  have hsteps := Steps.cons (Step.addW (s := ⟨list, size, 0, 1, 1, threads⟩) hposition
    Nat.one_pos) <| .cons (.addTest (Function.update_self _ _ _)) <|
    .cons (.addEnqueue ((Function.update_self _ _ _).trans (if_neg hsmall)) hnull hnew
      (hlinked.enqueue_eq hnew)) <|
    .cons (.addPost (Function.update_self _ _ _)) .nil
  simp only [Function.update_idem] at hsteps
  exact hsteps

/-- `add_cache_block` finds that the cache would be too large, and holds `w`. -/
theorem overflow (t : Fin n) (item : Item) (hposition : threads t = .addW item)
    (hsize : maxObjectSize < size + item.contentLength) :
    Steps Step ⟨list, size, 0, 1, 1, threads⟩ [.wait t, .test t]
      ⟨list, size + item.contentLength, 0, 1, 0, Function.update threads t (.evictW item)⟩ := by
  have hlarge : size + item.contentLength > maxObjectSize := hsize
  have hsteps := Steps.cons (Step.addW (s := ⟨list, size, 0, 1, 1, threads⟩) hposition
    Nat.one_pos) <| .cons (.addTest (Function.update_self _ _ _)) .nil
  simp only [Function.update_idem, if_pos hlarge] at hsteps
  exact hsteps

/-- `add_cache_block` adds a block whose uri is not cached. -/
theorem add (t : Fin n) (item : Item) (newnode : Nat) {live : List Nat}
    (hlinked : list.Linked live) (hidle : threads t = .idle)
    (hcontent : item.contentLength ≤ maxContentSize)
    (hfinds : list.Finds item.uri 0) (hsize : size + item.contentLength ≤ maxObjectSize)
    (hnull : newnode ≠ 0) (hnew : list.blocks newnode = none) :
    Steps Step ⟨list, size, 0, 1, 1, threads⟩
      (.call t (.add item) :: missing t item.uri ++ inserting t item.uri newnode)
      ⟨list.added newnode item, size + item.contentLength, 0, 1, 1, threads⟩ := by
  have hsteps := (add_miss t item hidle hcontent hfinds).append <|
    insert t item newnode hlinked (Function.update_self _ _ _) hsize hnull hnew
  rw [Function.update_idem, ← hidle, Function.update_eq_self] at hsteps
  exact hsteps

end Cache

end SystemProgramming.ProxyLab
