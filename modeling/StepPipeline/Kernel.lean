import StepPipeline.Library.IntrusiveList
import Mathlib.Data.BitVec

/-!
# What the pipeline takes from the build and from Zephyr

* `UndefinedBehaviour` — the ways in which the C code can leave defined
  behaviour; a modelled function that meets one of them reports it instead of
  going on.
* error codes of `errno.h`, as the negative values the functions return;
* `KMutex` — `struct k_mutex`, recursive per owner;
* `Platform` — the Kconfig values of the build, the list operations of
  `sys/slist.h` and the cycle counter conversion.  Everything that is Zephyr's
  own code enters as a parameter, with what the pipeline relies on of it.

## What is assumed of Zephyr

The sources use four things of the kernel whose code is not among them.  Mutexes are recursive and
a thread that does not get one waits; `KMutex` has this and no more: no priorities, and no order
among those that wait, so that whatever is shown of all interleavings is shown of every order in
which waiting threads are served.  The singly linked lists are operations with a contract,
`IntrusiveList.Ops`, of which `Ops.reference` is one instance: nothing below knows how `sys_slist`
keeps its tail.  Clocks are read, and what they read is an input of the step that reads them.  The
heaps are told in the label what they answer, within what a heap can answer.

## Undefined behaviour

A step that follows a NULL pointer, calls one, or indexes an array outside its bounds is the last
one of its run.  Nothing is said of what happens behind it, not even that nothing happens: a state
whose `fault` is set is a state the C standard says nothing about.  Results about runs therefore
speak of steps up to a fault, and say so where a fault is an outcome.
-/

namespace StepPipeline

/-- A step outside defined behaviour. -/
inductive UndefinedBehaviour where
  /-- A NULL data pointer was followed. -/
  | nullDeref
  /-- A NULL function pointer was called. -/
  | nullCall
  /-- An array was indexed outside its bounds. -/
  | outOfBounds
  deriving DecidableEq, Repr

/-- `-EINVAL`. -/
def negEinval : ℤ := -22

/-- `-ENOMEM`. -/
def negEnomem : ℤ := -12

/-! ### Mutexes -/

/-- A thread. -/
abbrev Tid := ℕ

/-- The work-queue thread of the processor manager. -/
def workQueueTid : Tid := 0

/-- `struct k_mutex`.  A held mutex records its owner and how many further times the owner has
locked it.  Both mutexes of the library are locked with `K_FOREVER`, so there is no timeout and no
error code to model: a call gets the mutex or does not return. -/
inductive KMutex where
  | free
  | held (owner : Tid) (nested : ℕ)
  deriving DecidableEq, Repr

namespace KMutex

/-- `k_mutex_lock(m, K_FOREVER)` by thread `t`; `none` while the call blocks. -/
def lock (t : Tid) : KMutex → Option KMutex
  | free => some (held t 0)
  | held o n => if o = t then some (held o (n + 1)) else none

/-- `k_mutex_unlock(m)` by thread `t`; a thread that does not own the mutex changes nothing
(Zephyr answers `-EPERM`, and no caller in the library looks at the answer). -/
def unlock (t : Tid) : KMutex → KMutex
  | free => free
  | held o 0 => if o = t then free else held o 0
  | held o (n + 1) => if o = t then held o n else held o (n + 1)

/-- A lock that was granted is given back by one unlock.  This is what the pairs of lock and
unlock in the code rely on, at whatever depth the owner has locked the mutex already. -/
theorem unlock_of_lock {t : Tid} {m m' : KMutex} (h : m.lock t = some m') :
    m'.unlock t = m := by
  cases m with
  | free =>
      obtain rfl : held t 0 = m' := by simpa [lock] using h
      simp [unlock]
  | held o n =>
      by_cases ho : o = t
      · obtain rfl : held o (n + 1) = m' := by simpa [lock, ho] using h
        simp [unlock, ho]
      · simp [lock, ho] at h

/-- A granted lock leaves the mutex with the caller. -/
theorem lock_eq_held {t : Tid} {m m' : KMutex} (h : m.lock t = some m') :
    ∃ n, m' = held t n := by
  cases m with
  | free => exact ⟨0, by simpa [lock] using h.symm⟩
  | held o n =>
      by_cases ho : o = t
      · exact ⟨n + 1, by simpa [lock, ho] using h.symm⟩
      · simp [lock, ho] at h

/-- A granted lock shows in the mutex: it cannot be the state from before, so a call that does not
unlock leaves a trace. -/
theorem lock_ne {t : Tid} {m m' : KMutex} (h : m.lock t = some m') : m' ≠ m := by
  cases m with
  | free =>
      obtain rfl : held t 0 = m' := by simpa [lock] using h
      simp
  | held o n =>
      by_cases ho : o = t
      · obtain rfl : held o (n + 1) = m' := by simpa [lock, ho] using h
        simp
      · simp [lock, ho] at h

end KMutex

/-! ### The build -/

/-- The configuration of a build, and the services of the kernel the processor
manager is linked with. -/
structure Platform where
  /-- `CONFIG_STEP_PROC_MGR_NODE_LIMIT`. -/
  nodeLimit : ℕ
  /-- The Kconfig range of the node limit, `1 255`. -/
  nodeLimit_range : 1 ≤ nodeLimit ∧ nodeLimit ≤ 255
  /-- `CONFIG_STEP_FILTER_CACHE`. -/
  filterCache : Bool
  /-- `CONFIG_STEP_FILTER_CACHE_DEPTH`, of a cache with at least one record. -/
  cacheDepth : ℕ
  cacheDepth_pos : 1 ≤ cacheDepth
  /-- `CONFIG_STEP_INSTRUMENTATION`. -/
  instrumentation : Bool
  /-- `k_cyc_to_ns_floor32`. -/
  cycToNs : BitVec 32 → BitVec 32
  /-- `sys_slist_prepend`, `sys_slist_insert` and `sys_slist_append`. -/
  slist : IntrusiveList.Ops ℕ

/-- The same build with the filter cache switched.  The results on what the cache changes compare
a build with itself under the other setting of this one option. -/
def Platform.withFilterCache (P : Platform) (on : Bool) : Platform :=
  { P with filterCache := on }

/-- The build of the test suite: four nodes, no cache, no instrumentation. -/
def Platform.tests : Platform where
  nodeLimit := 4
  nodeLimit_range := by decide
  filterCache := false
  cacheDepth := 16
  cacheDepth_pos := by decide
  instrumentation := false
  cycToNs := id
  slist := IntrusiveList.Ops.reference

end StepPipeline
