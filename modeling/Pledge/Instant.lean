-- Instants and how they are written: the date, then the time of day to the
-- millisecond.
import Pledge.Text.Numbers

namespace Pledge

/-- A point in time, in milliseconds since the start of 1970. -/
structure Instant where
  millis : Nat
  deriving DecidableEq, Repr

structure Date where
  year : Nat
  month : Nat
  day : Nat
  deriving DecidableEq, Repr

namespace Date

/-- The date a number of days after the first of January 1970. Days are counted from the first of
March of year 0, so that a leap day is the last day of its year, and in eras of 400 years, which all
have the same length. -/
def ofDays (days : Nat) : Date :=
  let fromMarch := days + 719468
  let era := fromMarch / 146097
  let dayOfEra := fromMarch % 146097
  let yearOfEra := (dayOfEra - dayOfEra / 1460 + dayOfEra / 36524 - dayOfEra / 146096) / 365
  let dayOfYear := dayOfEra - (365 * yearOfEra + yearOfEra / 4 - yearOfEra / 100)
  let monthFromMarch := (5 * dayOfYear + 2) / 153
  let day := dayOfYear - (153 * monthFromMarch + 2) / 5 + 1
  let month := if monthFromMarch < 10 then monthFromMarch + 3 else monthFromMarch - 9
  let year := yearOfEra + era * 400
  ⟨if month ≤ 2 then year + 1 else year, month, day⟩

end Date

namespace Instant

def date (i : Instant) : Date := Date.ofDays (i.millis / 86400000)

/-- The text of an instant: `2024-02-29 23:59:59.999`. -/
def text (i : Instant) : String :=
  let seconds := i.millis / 1000
  String.ofList (
    Text.paddedDecimal 4 i.date.year ++ '-' :: Text.paddedDecimal 2 i.date.month ++
      '-' :: Text.paddedDecimal 2 i.date.day ++
      ' ' :: Text.paddedDecimal 2 (seconds / 3600 % 24) ++
      ':' :: Text.paddedDecimal 2 (seconds / 60 % 60) ++
      ':' :: Text.paddedDecimal 2 (seconds % 60) ++
      '.' :: Text.paddedDecimal 3 (i.millis % 1000))

end Instant

end Pledge
