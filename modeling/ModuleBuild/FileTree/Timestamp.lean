/-!
# Timestamps

The times that files bear. A file system counts nanoseconds and has 34 bits for the seconds, so that there
is an earliest and a latest time; a file that is stamped with a time outside bears the nearest one inside.
Stamping keeps the order of times (`ofNanoseconds_le_ofNanoseconds`), but two different times outside may
fall together.
-/

namespace ModuleBuild

namespace Timestamp

/-- A second, in nanoseconds. -/
def second : Int := 1000000000

/-- The earliest time that a file can bear, as many seconds before the beginning of 1970 as 31 bits
count. -/
def earliest : Int := -2147483648 * second

/-- The latest time that a file can bear: the last second that 34 bits count from the earliest on. -/
def latest : Int := 15032385535 * second

end Timestamp

/-- A time that a file can bear. -/
structure Timestamp where
  nanoseconds : Int
  earliest_le : Timestamp.earliest ≤ nanoseconds
  le_latest : nanoseconds ≤ Timestamp.latest
  deriving DecidableEq, Repr

namespace Timestamp

instance : LT Timestamp := ⟨fun s t ↦ s.nanoseconds < t.nanoseconds⟩

instance : LE Timestamp := ⟨fun s t ↦ s.nanoseconds ≤ t.nanoseconds⟩

instance (s t : Timestamp) : Decidable (s < t) :=
  inferInstanceAs (Decidable (s.nanoseconds < t.nanoseconds))

instance (s t : Timestamp) : Decidable (s ≤ t) :=
  inferInstanceAs (Decidable (s.nanoseconds ≤ t.nanoseconds))

theorem earliest_le_latest : earliest ≤ latest := by decide

/-- The time that a file bears which is stamped with a time: the nearest one that it can bear. -/
def ofNanoseconds (time : Int) : Timestamp where
  nanoseconds := max earliest (min latest time)
  earliest_le := Int.le_max_left ..
  le_latest := Int.max_le.mpr ⟨earliest_le_latest, Int.min_le_left ..⟩

/-- The time that a file bears which is stamped with a time in seconds. -/
def ofSeconds (time : Int) : Timestamp := ofNanoseconds (time * second)

theorem lt_iff {s t : Timestamp} : s < t ↔ s.nanoseconds < t.nanoseconds := Iff.rfl

theorem le_iff {s t : Timestamp} : s ≤ t ↔ s.nanoseconds ≤ t.nanoseconds := Iff.rfl

/-- A time that a file can bear is kept. -/
@[simp] theorem ofNanoseconds_nanoseconds (t : Timestamp) : ofNanoseconds t.nanoseconds = t := by
  have := t.earliest_le
  have := t.le_latest
  cases t
  simp_all only [ofNanoseconds, Timestamp.mk.injEq]
  omega

/-- Stamping keeps the order of times. -/
theorem ofNanoseconds_le_ofNanoseconds {m n : Int} (h : m ≤ n) :
    ofNanoseconds m ≤ ofNanoseconds n := by
  simp only [le_iff, ofNanoseconds]
  omega

end Timestamp

end ModuleBuild
