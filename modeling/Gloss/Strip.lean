import Gloss.Scan
import Gloss.Strip.Line
/-!
# Stripping

`stripFragments` puts a text together from its fragments without the comments;
`Rules.strip` scans first. Where a comment held two characters apart a space
takes its place, blanks left at the end of a line go, and line breaks inside
comments stay or go with the policy. Literals are kept as they are.

`codeText` is the plain join of what is not a comment. It may bring two halves
of an opener together, so it is not for text that is scanned again.
-/

namespace Gloss

/-- The build after one more fragment. -/
def Build.feed (policy : Policy) (b : Build) (f : Fragment) : Build :=
  if f.kind.isComment then b.drop policy f.text f.next else b.keep f.kind.isLiteral f.text

/-- The text of the fragments without the comments. -/
def stripFragments (policy : Policy) (fs : List Fragment) : Text :=
  (fs.foldl (Build.feed policy) {}).close policy

/-- The text without its comments. -/
def Rules.strip (r : Rules) (policy : Policy) (source : Text) : Text :=
  stripFragments policy (r.fragments source)

/-- What is not a comment, joined as it stands. -/
def codeText (fs : List Fragment) : Text :=
  (fs.filter fun f => !f.kind.isComment).flatMap (·.text)

/-- The code text at given regions. The regions of comments are not cut out, so
they may lie anywhere. -/
def codeTextAt? (source : Text) (regions : List Region) : Option Text :=
  (fragmentsAt? source (regions.filter fun r => !r.kind.isComment)).map codeText

end Gloss
