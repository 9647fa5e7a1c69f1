import Xv6.Sanity.ExecPages

/-! The argument block that `exec` puts on the new stack, piece by piece, and the same block in integers, where nothing wraps
around. -/

namespace Xv6.Vm

section Pieces

variable {img : ℕ → Option UInt8} {ps : List (ℕ × List UInt8)} {a x k : ℕ} {bytes : List UInt8}

/-- `y`, bytes and where they are, ends below the start of `x`. -/
def Under (x y : ℕ × List UInt8) : Prop := y.1 + y.2.length ≤ x.1

/-- `img` with one piece after the other. -/
def overlays (img : ℕ → Option UInt8) (ps : List (ℕ × List UInt8)) : ℕ → Option UInt8 :=
  ps.foldl (fun img p => overlay img p.1 p.2) img

theorem overlay_above (h : a + bytes.length ≤ x) : overlay img a bytes x = img x :=
  if_neg fun hx => absurd hx.2 (Nat.not_lt.mpr h)

theorem overlay_at (h : k < bytes.length) : overlay img a bytes (a + k) = bytes[k]? := by
  rw [overlay, if_pos ⟨Nat.le_add_right a k, Nat.add_lt_add_left h a⟩, Nat.add_sub_cancel_left]

theorem overlays_above (h : ∀ p ∈ ps, p.1 + p.2.length ≤ x) : overlays img ps x = img x := by
  induction ps generalizing img with
  | nil => rfl
  | cons p ps ih =>
    rw [overlays, List.foldl_cons, ← overlays, ih fun q hq => h q (List.mem_cons_of_mem _ hq)]
    exact overlay_above (h p List.mem_cons_self)

/-- Pieces that go down do not overwrite each other. -/
theorem overlays_at (h : ps.Pairwise Under) {p : ℕ × List UInt8} (hp : p ∈ ps) (hk : k < p.2.length) :
    overlays img ps (p.1 + k) = p.2[k]? := by
  induction ps generalizing img with
  | nil => cases hp
  | cons q ps ih =>
    obtain ⟨hq, hps⟩ := List.pairwise_cons.mp h
    rw [overlays, List.foldl_cons, ← overlays]
    rcases List.mem_cons.mp hp with rfl | hp
    · rw [overlays_above fun y hy => (hq y hy).trans (Nat.le_add_right _ k)]
      exact overlay_at hk
    · exact ih hps hp

end Pieces

section Block

variable {img : ℕ → Option UInt8} {argv : List (List UInt8)} {sp top stackbase : ℕ}

/-- The strings, with their terminators, where they go. -/
def argPieces (sp : ℕ) (argv : List (List UInt8)) : List (ℕ × List UInt8) := (argPtrs sp argv).zip (argv.map (· ++ [0]))

/-- The strings, and the pointers to them below. -/
def stackPieces (top : ℕ) (argv : List (List UInt8)) : List (ℕ × List UInt8) :=
  argPieces top argv ++ [(stackSp top argv, (argPtrs top argv ++ [0]).flatMap (leBytes 8))]

theorem argPieces_cons (sp : ℕ) (arg : List UInt8) (argv : List (List UInt8)) : argPieces sp (arg :: argv) =
    (pushSp sp (arg.length + 1), arg ++ [0]) :: argPieces (pushSp sp (arg.length + 1)) argv := rfl

theorem argImage_eq (img : ℕ → Option UInt8) (sp : ℕ) (argv : List (List UInt8)) :
    argImage img sp argv = overlays img (argPieces sp argv) := by
  induction argv generalizing img sp with
  | nil => rfl
  | cons arg argv ih => rw [argImage, ih, argPieces_cons, overlays, overlays, List.foldl_cons]

theorem stackImage_eq (img : ℕ → Option UInt8) (top : ℕ) (argv : List (List UInt8)) :
    stackImage img top argv = overlays img (stackPieces top argv) := by
  rw [stackImage, argImage_eq, stackPieces, overlays, overlays, List.foldl_append]
  rfl

/-- No string is longer than what is below the stack pointer. -/
def NoWrap : ℕ → List (List UInt8) → Prop
  | _, [] => True
  | sp, arg :: argv => arg.length + 1 ≤ sp ∧ NoWrap (pushSp sp (arg.length + 1)) argv

theorem NoWrap.pieces (h : NoWrap sp argv) (hsp : sp < 2 ^ 64) : argEnd sp argv ≤ sp ∧ (argPieces sp argv).Pairwise Under ∧
    ∀ p ∈ argPieces sp argv, argEnd sp argv ≤ p.1 ∧ p.1 + p.2.length ≤ sp := by
  induction argv generalizing sp with
  | nil => exact ⟨le_rfl, .nil, nofun⟩
  | cons arg argv ih =>
    have hpush := pushSp_spec h.1 hsp
    obtain ⟨hend, hpair, hin⟩ := ih h.2 (by omega)
    have hlen : (arg ++ [(0 : UInt8)]).length = arg.length + 1 := by rw [List.length_append, List.length_singleton]
    rw [argEnd, argPieces_cons]
    refine ⟨by omega, List.pairwise_cons.mpr ⟨fun y hy => (hin y hy).2, hpair⟩, fun p hp => ?_⟩
    rcases List.mem_cons.mp hp with rfl | hp
    · exact ⟨hend, hlen.symm ▸ hpush⟩
    · exact ⟨(hin p hp).1, (hin p hp).2.trans (by omega)⟩

/-- As long as nothing has gone below the stack there is room for one more string. -/
theorem noWrap_of_above (hshort : ∀ arg ∈ argv, arg.length < PGSIZE) (hbase : PGSIZE ≤ stackbase) (hsp : stackbase ≤ sp)
    (h : ∀ ptr ∈ argPtrs sp argv, stackbase ≤ ptr) : NoWrap sp argv ∧ stackbase ≤ argEnd sp argv := by
  induction argv generalizing sp with
  | nil => exact ⟨trivial, hsp⟩
  | cons arg argv ih =>
    have hlen := hshort arg List.mem_cons_self
    obtain ⟨hrest, hend⟩ := ih (fun l hl => hshort l (List.mem_cons_of_mem _ hl)) (h _ List.mem_cons_self)
      fun ptr hp => h ptr (List.mem_cons_of_mem _ hp)
    exact ⟨⟨by omega, hrest⟩, hend⟩

end Block

section Integers

variable {argv : List (List UInt8)} {sp n top stackbase : ℕ}

/-- `n` bytes below `sp`, aligned. -/
def pushInt (sp : ℤ) (n : ℕ) : ℤ := (sp - n) / 16 * 16

/-- Where the strings would be if the stack had no end. -/
def intPtrs : ℤ → List (List UInt8) → List ℤ
  | _, [] => []
  | sp, arg :: argv => pushInt sp (arg.length + 1) :: intPtrs (pushInt sp (arg.length + 1)) argv

def intEnd : ℤ → List (List UInt8) → ℤ
  | sp, [] => sp
  | sp, arg :: argv => intEnd (pushInt sp (arg.length + 1)) argv

/-- How far down the strings and the pointers go. -/
def intSp (top : ℤ) (argv : List (List UInt8)) : ℤ := pushInt (intEnd top argv) ((argv.length + 1) * 8)

theorem pushInt_le (sp : ℤ) (n : ℕ) : pushInt sp n ≤ sp := by
  rw [pushInt]
  omega

theorem pushSp_int (hn : n ≤ sp) (hsp : sp < 2 ^ 64) : (pushSp sp n : ℤ) = pushInt sp n := by
  have hmod : (sp + 2 ^ 64 - n) % 2 ^ 64 = sp - n := by omega
  rw [pushSp, hmod, pushInt]
  omega

theorem intEnd_le (sp : ℤ) (argv : List (List UInt8)) : intEnd sp argv ≤ sp := by
  induction argv generalizing sp with
  | nil => exact le_rfl
  | cons arg argv ih => exact (ih _).trans (pushInt_le _ _)

theorem NoWrap.int (h : NoWrap sp argv) (hsp : sp < 2 ^ 64) :
    (argPtrs sp argv).map (fun ptr : ℕ => (ptr : ℤ)) = intPtrs sp argv ∧ (argEnd sp argv : ℤ) = intEnd sp argv := by
  induction argv generalizing sp with
  | nil => exact ⟨rfl, rfl⟩
  | cons arg argv ih =>
    have hpush := pushSp_spec h.1 hsp
    obtain ⟨hptrs, hend⟩ := ih h.2 (by omega)
    rw [pushSp_int h.1 hsp] at hptrs hend
    rw [argPtrs, List.map_cons, hptrs, pushSp_int h.1 hsp]
    exact ⟨rfl, hend⟩

theorem above_of_intEnd (hshort : ∀ arg ∈ argv, arg.length < PGSIZE) (hbase : PGSIZE ≤ stackbase) (hsp : sp < 2 ^ 64)
    (h : (stackbase : ℤ) ≤ intEnd sp argv) : ∀ ptr ∈ argPtrs sp argv, stackbase ≤ ptr := by
  induction argv generalizing sp with
  | nil => nofun
  | cons arg argv ih =>
    have hlen := hshort arg List.mem_cons_self
    have hle : (stackbase : ℤ) ≤ pushInt sp (arg.length + 1) := h.trans (intEnd_le _ _)
    have hfit : arg.length + 1 ≤ sp := by
      have := hle.trans (pushInt_le _ _)
      omega
    have hpush := pushSp_spec hfit hsp
    have hint := pushSp_int hfit hsp
    intro ptr hp
    rcases List.mem_cons.mp hp with rfl | hp
    · omega
    · refine ih (fun l hl => hshort l (List.mem_cons_of_mem _ hl)) (by omega) ?_ ptr hp
      rw [hint]
      exact h

/-- What the machine tests step by step is where the block would end. -/
theorem fitsStack_iff (hmany : argv.length < MAXARG) (hshort : ∀ arg ∈ argv, arg.length < PGSIZE) (hbase : PGSIZE ≤ stackbase)
    (hle : stackbase ≤ top) (htop : top < 2 ^ 64) : FitsStack stackbase top argv ↔ (stackbase : ℤ) ≤ intSp top argv := by
  have hbytes : (argv.length + 1) * 8 ≤ PGSIZE := by
    simp only [MAXARG, PGSIZE] at hmany ⊢
    omega
  -- in both cases no string has gone below the stack
  have hsp : (∀ ptr ∈ argPtrs top argv, stackbase ≤ ptr) → (stackSp top argv : ℤ) = intSp top argv := fun h => by
    obtain ⟨hwrap, hend⟩ := noWrap_of_above hshort hbase hle h
    have hmax := (hwrap.pieces htop).1
    rw [stackSp, pushSp_int (by omega) (by omega), (hwrap.int htop).2, intSp]
  constructor
  · rintro ⟨hptrs, hlow⟩
    have := hsp hptrs
    omega
  · intro h
    have hptrs := above_of_intEnd hshort hbase htop (h.trans (pushInt_le _ _))
    have := hsp hptrs
    exact ⟨hptrs, by omega⟩

/-- A block that fits: the pieces lie on the stack, one below the other, at the addresses of the integers. -/
theorem FitsStack.pieces (h : FitsStack stackbase top argv) (hmany : argv.length < MAXARG)
    (hshort : ∀ arg ∈ argv, arg.length < PGSIZE) (hbase : PGSIZE ≤ stackbase) (hle : stackbase ≤ top) (htop : top < 2 ^ 64) :
    (stackPieces top argv).Pairwise Under ∧ (∀ p ∈ stackPieces top argv, stackbase ≤ p.1 ∧ p.1 + p.2.length ≤ top) ∧
    (argPtrs top argv).map (fun ptr : ℕ => (ptr : ℤ)) = intPtrs top argv ∧ (stackSp top argv : ℤ) = intSp top argv := by
  have hbytes : (argv.length + 1) * 8 ≤ PGSIZE := by
    simp only [MAXARG, PGSIZE] at hmany ⊢
    omega
  obtain ⟨hwrap, hend⟩ := noWrap_of_above hshort hbase hle h.1
  obtain ⟨hmax, hpair, hin⟩ := hwrap.pieces htop
  obtain ⟨hptrs, hint⟩ := hwrap.int htop
  have hfit : (argv.length + 1) * 8 ≤ argEnd top argv := by omega
  have hpush := pushSp_spec hfit (hmax.trans_lt htop)
  have hlen : ((argPtrs top argv ++ [0]).flatMap (leBytes 8)).length = (argv.length + 1) * 8 := by
    rw [length_flatMap_leBytes, List.length_append, length_argPtrs, List.length_singleton]
  have hlast : stackSp top argv + ((argPtrs top argv ++ [0]).flatMap (leBytes 8)).length ≤ argEnd top argv := by
    rw [hlen]
    exact hpush
  refine ⟨List.pairwise_append.mpr ⟨hpair, List.pairwise_singleton _ _, fun x hx y hy => ?_⟩, fun p hp => ?_, hptrs, ?_⟩
  · obtain rfl := List.mem_singleton.mp hy
    exact hlast.trans (hin x hx).1
  · rcases List.mem_append.mp hp with hp | hp
    · exact ⟨hend.trans (hin p hp).1, (hin p hp).2⟩
    · obtain rfl := List.mem_singleton.mp hp
      exact ⟨h.2, hlast.trans hmax⟩
  · rw [stackSp, pushSp_int hfit (hmax.trans_lt htop), hint, intSp]

end Integers

end Xv6.Vm
