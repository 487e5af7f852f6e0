import CosmeticFilter.Text.Basic

/-!
# Warnings

A style sheet may be compiled again and again, so a warning is only given the first time. The log
remembers the warnings that have been given, as they are written: with the component in square
brackets in front of the message.

* `WarningLog.warn`: gives a warning, unless it has been given;
* `WarningLog.has`: a warning has been given.
-/

namespace CosmeticFilter

/-- The warnings that have been given, the latest first. -/
structure WarningLog where
  /-- The warnings as they are remembered. -/
  given : List Text
  deriving DecidableEq, Repr

namespace WarningLog

/-- No warning has been given. -/
def empty : WarningLog := ⟨[]⟩

/-- A warning as it is remembered. -/
def key (component message : Text) : Text := '[' :: component ++ "] ".toList ++ message

/-- The warning has been given. -/
def has (log : WarningLog) (component message : Text) : Bool :=
  log.given.contains (key component message)

/-- Gives a warning. -/
def warn (log : WarningLog) (component message : Text) : WarningLog :=
  if log.has component message then log else ⟨key component message :: log.given⟩

end WarningLog
end CosmeticFilter
