import TreeDelta.Text.Basic
/-!
# Log records

A record is a level and a text. Operations return their records as data, in order; a program
shows those at or above the level it is asked for.
-/

namespace TreeDelta

inductive Level where
  | debug | info | warning | error | critical
deriving DecidableEq, Repr

namespace Level

def rank : Level → Nat
  | debug => 10
  | info => 20
  | warning => 30
  | error => 40
  | critical => 50

def name : Level → Text
  | debug => "DEBUG"
  | info => "INFO"
  | warning => "WARNING"
  | error => "ERROR"
  | critical => "CRITICAL"

end Level

structure LogEntry where
  level : Level
  text : Text
deriving DecidableEq, Repr

/-- The records a program shows that is set to a level. -/
def shownAt (level : Level) (log : List LogEntry) : List LogEntry :=
  log.filter fun entry => level.rank ≤ entry.level.rank

end TreeDelta
