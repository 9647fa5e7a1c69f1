import Xv6.Lib.Wp

/-! Two programs that do the same in states that look the same to them. -/

namespace Wp

variable {σ τ ε α β : Type}

section Rules

variable {R : σ → τ → Prop} {m : StateT σ (Except ε) α} {m' : StateT τ (Except ε) α}
  {f : α → StateT σ (Except ε) β} {f' : α → StateT τ (Except ε) β}

end Rules

end Wp
