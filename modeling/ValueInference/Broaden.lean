/-
Broadening: forgetting known constants and keeping types and shapes, so that an inference does not
follow every constant that one round has seen.

* **`Variant.broaden`** — the variant that broadens scalars; which functions may be called is no
  constant to forget;
* **`Infer.broaden`** — broadens a value.
-/
import ValueInference.Merge
import ValueInference.Rebuild

namespace ValueInference

universe u

def Variant.broaden {σ : Type} {m : Type → Type u} [Host m] : Variant (Rebuild σ m) :=
  { Variant.plain with
    scalar := fun _ n value ty => do
      let broad := (← Rebuild.infer Infer.store).broadenSlot value
      if broad = value then return n else Rebuild.infer (Infer.scalar broad ty)
    function := fun _ n _ => return n }

/-- A value without its constants. -/
def Infer.broaden (n : NodeId) : Infer NodeId := Infer.rebuild .broaden n

end ValueInference
