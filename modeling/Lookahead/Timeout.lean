import Lookahead.Notice
import Lookahead.Text.Engine
import Lookahead.Text.Numeral

/-!
# Timeout — searching within a limit on time

The limit on the time of a search is a setting written as text. Without a setting the limit is two
seconds, and so it is, with a warning, if the setting is no numeral. How a search ends within the
limit is up to the engine.
-/

namespace Lookahead

/-- The setting of the limit as it is read. -/
inductive Timeout.Setting
  | unset
  | unreadable (setting : String)
  | seconds (value : Float)

/-- A limit on time, as it is set, and the engine that keeps to it. -/
structure Timeout where
  setting : Timeout.Setting
  engine : Engine := .standard

namespace Timeout

/-- Reads a setting. An empty one is like none. -/
def Setting.ofText : Option String → Setting
  | none => unset
  | some setting =>
      if setting = "" then unset
      else
        match Numeral.ofString? setting with
        | some numeral => seconds numeral.toFloat
        | none => unreadable setting

/-- The limit of a setting, for the standard engine. -/
def ofSetting (setting : Option String) : Timeout where
  setting := .ofText setting

/-- The standard engine without a setting. -/
def unset : Timeout where
  setting := .unset

/-- The limit where nothing else is set. -/
def standard : Float := 2.0

/-- The limit in seconds. -/
def limit (timeout : Timeout) : Float :=
  match timeout.setting with
  | .seconds value => value
  | _ => standard

/-- Reading an unreadable setting is reported each time. -/
def notices (timeout : Timeout) : List Notice :=
  match timeout.setting with
  | .unreadable setting => [.unreadableTimeout setting]
  | _ => []

end Timeout

end Lookahead
