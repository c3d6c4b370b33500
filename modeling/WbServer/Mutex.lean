import Mathlib.Tactic

/-!
# Locks
-/

namespace WbServer

/-- `RWMutex`: the threads that hold it for reading, once for every time, and the thread that
holds it for writing. -/
structure RWMutex where
  readers : List ℕ
  writer : Option ℕ
  deriving DecidableEq

namespace RWMutex

/-- A lock that nobody holds. -/
def free : RWMutex := { readers := [], writer := none }

/-- `read_lock`, when it returns. -/
def readLock (m : RWMutex) (t : ℕ) : Option RWMutex :=
  if m.writer = none then some { m with readers := t :: m.readers } else none

/-- `write_lock`, when it returns. -/
def writeLock (m : RWMutex) (t : ℕ) : Option RWMutex :=
  if m.writer = none ∧ m.readers = [] then some { m with writer := some t } else none

/-- `unlock`. -/
def unlock (m : RWMutex) (t : ℕ) : RWMutex :=
  if m.writer = some t then { m with writer := none }
  else { m with readers := m.readers.erase t }

/-- A thread that is alone takes and releases the lock. -/
theorem readLock_free (t : ℕ) :
  ∃ m, free.readLock t = some m ∧ m.unlock t = free
  := by
  use { readers := [t], writer := none }
  simp [readLock, unlock, free]

theorem writeLock_free (t : ℕ) :
  ∃ m, free.writeLock t = some m ∧ m.unlock t = free
  := by
  use { readers := [], writer := some t }
  simp [writeLock, unlock, free]

end RWMutex

end WbServer
