import WikiTidy.Diagram.Fence
import WikiTidy.Link.Blob
import WikiTidy.Page.Cleanup

/-!
# Normalizing a page

A page is normalized in a fixed order: the export noise goes first, then links are made absolute,
so that addresses of sections can be turned into addresses of anchors before revisions are dropped,
and at last the diagrams are repaired.
-/

namespace WikiTidy.Page

/-- The page in its normal form. -/
def normalize (anchors : Link.Anchors) (page : Text) : Text :=
  let page := dropPrompts (dropCopied (dropPreamble page))
  let page := Link.dropRevisions (Link.toAnchors anchors (Link.absolute page))
  Diagram.repairDiagrams page

end WikiTidy.Page
