import AtomicCss.Main
import AtomicCss.Proofs.Selector.Brackets
import AtomicCss.Proofs.Rule.Scope
import AtomicCss.Proofs.Variant.Override
import AtomicCss.Proofs.Variant.Predicates
import AtomicCss.Proofs.Theme.Reference
import AtomicCss.Proofs.Config.Breakpoints
import AtomicCss.Proofs.Engine.Naming
import AtomicCss.Proofs.Engine.Compilation
import AtomicCss.Proofs.Engine.Delivery
import AtomicCss.Proofs.Engine.Failure
import AtomicCss.Proofs.Engine.Insertions
import AtomicCss.Proofs.Engine.ClassState
import AtomicCss.Proofs.Engine.Memory
import AtomicCss.Proofs.Engine.Interleaving
import AtomicCss.Proofs.Engine.Repetition
import AtomicCss.Proofs.Engine.Order
import AtomicCss.Proofs.Sheet.Numbering
import AtomicCss.Proofs.Rule.Transparency
import AtomicCss.Proofs.Rule.Frames
import AtomicCss.Proofs.Rule.Values
import AtomicCss.Proofs.Rule.Fallbacks
import AtomicCss.Proofs.Rule.Blocks
import AtomicCss.Proofs.Variant.Composition
import AtomicCss.Proofs.Engine.GlobalText
import AtomicCss.Proofs.Manifest.Recompilation
import AtomicCss.Proofs.Theme.Words
import AtomicCss.Proofs.Style.Grammar
import AtomicCss.Proofs.Style.RoundTrip
import AtomicCss.Proofs.Variant.Reading
import AtomicCss.Proofs.Engine.ThemeLayout
import AtomicCss.Proofs.Engine.GeneratedThemes
import AtomicCss.Proofs.Text.Glyphs
import AtomicCss.Proofs.Theme.Overrides
import AtomicCss.Proofs.Config.Shadowing
import AtomicCss.Proofs.Engine.Props
import AtomicCss.Proofs.Selector.Quotes
import AtomicCss.Proofs.Hash.Framing
import AtomicCss.Proofs.Command.Lines
import AtomicCss.Proofs.Command.Outputs
import AtomicCss.Proofs.Variant.Obtained
