-- The class names that helpers get. Each helper that is added has the first name that no class of the
-- base text and no helper in front of it has, and it declares that name: the renaming of identifiers
-- and the search for classes agree on what the name of a class is.
import SnippetEngine.Proofs.Code.Renaming
import SnippetEngine.Proofs.Document.Copies
import SnippetEngine.Proofs.Text.Occurrences

namespace SnippetEngine

open Text

namespace Helper

variable {base : Text} {h : Helper} {N : Text}

end Helper

/-! ## One helper -/

namespace Placement

variable {base : Text} {p q : Placement} {h : Helper} {N : Text}

end Placement

/-- The base text has the first name, and the first two helpers take the next ones. -/
example :
    let helper : String → Helper := fun code => ⟨['e'], code.toList⟩
    let d : Document := { Document.ofText "class Foo {}".toList {} with
      gathered := { helpers := [helper "class Foo {}", helper " ", helper "public class Foo {}",
        helper "class Foo2 {}", helper "int i;"] } }
    (d.placeHelpers []).taken = ["Foo2".toList, "Foo3".toList, "Foo22".toList] ∧
      (d.placeHelpers []).sections.map (·.drop "// Snippet ID: e\n".length) =
        ["class Foo2 {}".toList, "class Foo3 {}".toList, "class Foo22 {}".toList,
          "int i;".toList] := by
  decide +kernel

end SnippetEngine
