/-
  SvgComponent.Component.Name — the name of a component: the ASCII letters and digits of the name asked for.

  What would start with a digit starts with `Svg` instead, and a name without any is `SvgIcon`.
-/

namespace SvgComponent.Component

def defaultName : String := "SvgIcon"

def sanitizeName (raw : String) : String :=
  let kept := raw.toList.filter Char.isAlphanum
  match kept.head? with
  | none => defaultName
  | some c => if c.isDigit then "Svg" ++ String.ofList kept else String.ofList kept

end SvgComponent.Component
