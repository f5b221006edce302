import AtomicCss.NameMap

/-!
Which scale the bare tokens of a CSS property come from.
-/

namespace AtomicCss.Theme

def defaultBindings : List (String × String) := [
  ("gap", "space"),
  ("grid-gap", "space"),
  ("column-gap", "space"),
  ("grid-column-gap", "space"),
  ("row-gap", "space"),
  ("grid-row-gap", "space"),
  ("inset", "space"),
  ("inset-block", "space"),
  ("inset-block-end", "space"),
  ("inset-block-start", "space"),
  ("inset-inline", "space"),
  ("inset-inline-end", "space"),
  ("inset-inline-start", "space"),
  ("margin", "space"),
  ("margin-top", "space"),
  ("margin-right", "space"),
  ("margin-bottom", "space"),
  ("margin-left", "space"),
  ("margin-block", "space"),
  ("margin-block-end", "space"),
  ("margin-block-start", "space"),
  ("margin-inline", "space"),
  ("margin-inline-end", "space"),
  ("margin-inline-start", "space"),
  ("padding", "space"),
  ("padding-top", "space"),
  ("padding-right", "space"),
  ("padding-bottom", "space"),
  ("padding-left", "space"),
  ("padding-block", "space"),
  ("padding-block-end", "space"),
  ("padding-block-start", "space"),
  ("padding-inline", "space"),
  ("padding-inline-end", "space"),
  ("padding-inline-start", "space"),
  ("scroll-margin", "space"),
  ("scroll-padding", "space"),
  ("top", "space"),
  ("right", "space"),
  ("bottom", "space"),
  ("left", "space"),
  ("font-size", "fontSizes"),
  ("background", "colors"),
  ("background-color", "colors"),
  ("background-image", "colors"),
  ("border-image", "colors"),
  ("border", "colors"),
  ("border-block", "colors"),
  ("border-block-end", "colors"),
  ("border-block-start", "colors"),
  ("border-bottom", "colors"),
  ("border-bottom-color", "colors"),
  ("border-color", "colors"),
  ("border-inline", "colors"),
  ("border-inline-end", "colors"),
  ("border-inline-start", "colors"),
  ("border-left", "colors"),
  ("border-left-color", "colors"),
  ("border-right", "colors"),
  ("border-right-color", "colors"),
  ("border-top", "colors"),
  ("border-top-color", "colors"),
  ("caret-color", "colors"),
  ("color", "colors"),
  ("column-rule-color", "colors"),
  ("fill", "colors"),
  ("outline", "colors"),
  ("outline-color", "colors"),
  ("stroke", "colors"),
  ("text-decoration-color", "colors"),
  ("font-family", "fonts"),
  ("font-weight", "fontWeights"),
  ("line-height", "lineHeights"),
  ("letter-spacing", "letterSpacings"),
  ("block-size", "sizes"),
  ("min-block-size", "sizes"),
  ("max-block-size", "sizes"),
  ("inline-size", "sizes"),
  ("min-inline-size", "sizes"),
  ("max-inline-size", "sizes"),
  ("width", "sizes"),
  ("min-width", "sizes"),
  ("max-width", "sizes"),
  ("height", "sizes"),
  ("min-height", "sizes"),
  ("max-height", "sizes"),
  ("flex-basis", "sizes"),
  ("grid-template-columns", "sizes"),
  ("grid-template-rows", "sizes"),
  ("border-width", "borderWidths"),
  ("border-top-width", "borderWidths"),
  ("border-right-width", "borderWidths"),
  ("border-bottom-width", "borderWidths"),
  ("border-left-width", "borderWidths"),
  ("border-style", "borderStyles"),
  ("border-top-style", "borderStyles"),
  ("border-right-style", "borderStyles"),
  ("border-bottom-style", "borderStyles"),
  ("border-left-style", "borderStyles"),
  ("border-radius", "radii"),
  ("border-top-left-radius", "radii"),
  ("border-top-right-radius", "radii"),
  ("border-bottom-right-radius", "radii"),
  ("border-bottom-left-radius", "radii"),
  ("box-shadow", "shadows"),
  ("text-shadow", "shadows"),
  ("transition", "transitions"),
  ("z-index", "zIndices")
]

def defaultMap : NameMap String := NameMap.ofList defaultBindings

end AtomicCss.Theme
