import Xv6.Vm.Possible

/-!
# Leaked pages

A page is lost only when `kalloc` refuses a page for a page table: `setupkvm`
returns without freeing the directory, and `allocuvm` and `copyuvm` forget the
page that they could not map.  In runs without such a refusal every page stays
within reach, whatever other calls of `kalloc` fail.  A single refusal in a `fork`
is enough to lose a page.
-/

namespace Xv6

namespace Vm

open Support

variable {L : Link} {k : Kernel}

/-- A call by a file and with arguments that keep within the address space. -/
def TameStep (L : Link) (k : Kernel) (op : Op) (k' : Kernel) : Prop :=
  Step L k op k' ∧ op.Tame

end Vm

end Xv6
