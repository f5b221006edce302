import AtomicCss.Name
import AtomicCss.Text.Search

/-!
CSS property names: how style keys spell them, and which properties take bare numbers as lengths.
-/

namespace AtomicCss.Property

def dashed (c : Char) : List Char := if c.isUpper then ['-', c.toLower] else [c]

/-- Whether the key starts with the vendor prefix `ms` before a capital. -/
def hasLowerVendor : List Char → Bool
  | 'm' :: 's' :: c :: _ => c.isUpper
  | _ => false

/-- The property that a key names: `backgroundColor` is `background-color`, `WebkitLineClamp` is
`-webkit-line-clamp` and `msFlex` is `-ms-flex`. Custom properties and keys without capitals stand
as they are. -/
def ofKey (key : String) : String :=
  let cs := key.toList
  if Text.hasPrefix "--" key || !cs.any Char.isUpper then key
  else String.ofList ((if hasLowerVendor cs then ['-'] else []) ++ cs.flatMap dashed)

def ofLocalToken (name namePrefix : String) : String := Name.customProperty namePrefix name

def unitless : List String := ["tab-size", "-moz-tab-size", "border-image-width"]

def lengthPrefixes : List String :=
  ["margin", "padding", "inset", "scroll-margin", "scroll-padding"]

def lengthSuffixes : List String := ["-width", "-height", "-size", "-radius"]

def lengths : List String := [
  "width", "height", "top", "right", "bottom", "left", "gap", "row-gap", "column-gap", "grid-gap",
  "font-size", "letter-spacing", "border-radius", "border-width", "flex-basis", "outline-offset",
  "text-indent", "border-spacing", "perspective", "block-size", "inline-size"]

/-- Whether a bare number other than zero means pixels. -/
def takesLength (property : String) : Bool :=
  if Text.hasPrefix "--" property || unitless.contains property then false
  else if lengthPrefixes.any (Text.hasPrefix · property) || lengths.contains property then true
  else lengthSuffixes.any (Text.hasSuffix · property) && !Text.hasPrefix "line-" property

end AtomicCss.Property
