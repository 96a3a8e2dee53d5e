import TemplateTag.Dialect
import TemplateTag.Text.Basic
/-!
# Settings

What the reading of a tag depends on, apart from the tag.
-/
namespace TemplateTag

structure Settings where
  dialect : Dialect := {}
  /-- The template stands inside a raw block. -/
  rawBlockActive : Bool := false
  /-- Is a helper of this name registered? -/
  hasHelper : Text → Bool := fun _ => false
  /-- How deep subexpressions may nest. -/
  maxDepth : Nat := 64

end TemplateTag
