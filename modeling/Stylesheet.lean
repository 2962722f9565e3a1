import Stylesheet.Options.Load
import Stylesheet.Proofs.Import.Depth
import Stylesheet.Proofs.Reader.Arguments
import Stylesheet.Proofs.Reader.ClassName
import Stylesheet.Proofs.Reader.FirmTexts
import Stylesheet.Proofs.Reader.Folding
import Stylesheet.Proofs.Reader.Indexed
import Stylesheet.Proofs.Reader.Inferred
import Stylesheet.Proofs.Reader.Interrupted
import Stylesheet.Proofs.Reader.Lines
import Stylesheet.Proofs.RoundTrip.Templates
import Stylesheet.Proofs.Selector.Fragments
import Stylesheet.Proofs.Selector.Grouped
import Stylesheet.Proofs.Selector.OneName
import Stylesheet.Proofs.Selector.Separated
import Stylesheet.Proofs.Selector.Strings
import Stylesheet.Proofs.Selector.Tended
import Stylesheet.Proofs.Shorthand.Font
import Stylesheet.Proofs.Shorthand.Resets
import Stylesheet.Proofs.Tidy.Empty
import Stylesheet.Proofs.Tidy.Settled
import Stylesheet.Proofs.Value.Shortened
