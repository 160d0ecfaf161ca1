import Discontinuous.Text.Glyph

/-!
Composed forms of texts. Names and words are compared after composition, whatever it is that
composition does: nothing in grammars, lexicons and scripts depends on it.
-/
namespace Discontinuous

/-- What is done to a text before it is compared with others. -/
class Composer where
  compose : Text → Text

namespace Text

variable [Composer]

def composed (t : Text) : Text := Composer.compose t

def composedString (s : String) : String := (composed (ofString s)).toString

end Text

end Discontinuous
