/-
A small document, for trying things out.

Its nodes are numbered in document order: two paragraphs (1 and 8) with text (4 and 9), the first
one with an identifier (2) and a language (3), and between them a comment (5), an empty element
(6) and a processing instruction (7).
-/
import XPath.Tree.Basic

namespace XPath.Tree

/-- The nodes of the sample document. -/
def sampleEntries : List Entry :=
  [⟨0, .element ⟨none, "para", none⟩⟩,
   ⟨1, .attribute ⟨none, "id", none⟩ "p1"⟩,
   ⟨1, .attribute ⟨some "xml", "lang", some xmlNamespace⟩ "en"⟩,
   ⟨1, .text "Hello"⟩,
   ⟨0, .comment " comment node "⟩,
   ⟨0, .element ⟨none, "div", none⟩⟩,
   ⟨0, .instruction ⟨none, "pi-target", none⟩ "pi-value"⟩,
   ⟨0, .element ⟨none, "para", none⟩⟩,
   ⟨8, .text "World"⟩]

def sample : Tree := (ofEntries? sampleEntries).getD empty

end XPath.Tree
