import Nyvela.AsMap
import Nyvela.PageMap

/-!
# Pages that are shared (`is_shared_user_page` in `src/mm/vmm.c`)

The pages of the init image and its stack page are the same in all address spaces, and the
calls on user memory are to leave them alone. `is_shared_user_page` adds the number of pages
of the image to its address, so it knows the first few bytes of the image only, and the
calls do not align the address that they ask about.
-/

namespace Nyvela

namespace Vmm

open PageTree

section

variable {own : List ℕ → Bool} {v w : Vmm} {kind : ℕ → Option Kind} {roots : List ℕ}
  {size : ℕ} {cr3 virt a : Word}

/-! ## The answer -/

end

end Vmm

namespace PageState

open PageTree Vmm

end PageState

end Nyvela
