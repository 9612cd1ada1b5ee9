import Introspect.Json.Reader

/-!
Settings of the library, with the defaults that hold where a description leaves them out.
-/

namespace Introspect

structure Settings where
  /-- Whether a method that is only named is called without arguments. -/
  implicitCalls : Bool
  /-- Whether an expression is dynamic only behind its sentinel. -/
  flagGating : Bool
  /-- Whether a matcher keeps its results. -/
  matchCache : Bool
  deriving DecidableEq

namespace Settings

open Json (Document)

def default : Settings := ⟨true, false, true⟩

/-- The one switch of a section; none if the section or its value is malformed. -/
def switch? (name : String) (fallback : Bool) : Option Document → Option Bool
  | none => some fallback
  | some s => do
    match ← s.fields? [name] with
    | [some value] => value.bool?
    | _ => some fallback

def ofDocument? (d : Document) : Option Settings := do
  let [parser, expressions, matcher] ← d.fields? ["parser", "expressions", "matcher"] | none
  return ⟨← switch? "implicit_calls" default.implicitCalls parser,
    ← switch? "flag_gating" default.flagGating expressions,
    ← switch? "cache" default.matchCache matcher⟩

def ofJson? (text : String) : Option Settings := (Json.read? text).bind ofDocument?

end Settings

end Introspect
