import OsLabs.Jos.StabSearch

/-!
# The binary search over an arbitrary table

What `stab_binsearch` leaves when nothing is known about the table: the bounds
stay within the region, except that the left bound is one before it when the
first entry of the region is above the address.  An address that is far enough
from the greatest does not wrap around.
-/

namespace OsLabs.Jos

section Bounds

variable {stabs : Stabs} {stab : ℤ → Stab} {type : BitVec 8} {first last : ℤ} {addr : Word}

theorem Searches.nonempty {s : Search} (hrun : Searches stabs type (Search.start first last addr) s)
    (hyes : s.anyMatches = true) : first ≤ last := by
  cases hrun with
  | done hend => cases hyes
  | step hle _ _ => exact hle

variable (type) in
/-- The bounds that a search leaves. -/
theorem stabBinsearch_bounds (hreads : Reads stabs stab first last) (addr : Word) :
    ∃ left right, stabBinsearch stabs type first last addr = some (left, right) ∧
      (left = first ∧ right = first - 1 ∨
        first - 1 ≤ left ∧ left ≤ right ∧ right ≤ last ∧
          ((stab first).nType ≠ type → first ≤ left)) := by
  obtain ⟨s, left, right, hrun, hends, hbrackets, hresult⟩ := stabBinsearch_spec type hreads addr
  refine ⟨left, right, hresult, ?_⟩
  obtain ⟨hleft, hright, hnone, -⟩ := hends
  dsimp only [Search.start] at hleft hright hnone
  have hlow : first ≤ s.left := hleft.elim Eq.ge fun h => h.1
  rcases hbrackets with ⟨hno, rfl, rfl⟩ | ⟨hyes, hle, rfl, rfl⟩ | ⟨-, hlt, rfl, hmatch, -⟩
  · have hsame := (hnone hno).1
    exact Or.inl ⟨hsame, by omega⟩
  · have hnonempty := hrun.nonempty hyes
    refine Or.inr ?_
    rcases hright with hsame | hentry
    · exact ⟨by omega, le_rfl, hsame.le, fun _ => hsame ▸ hnonempty⟩
    · obtain ⟨hfrom, hupto, htype⟩ := hentry
      refine ⟨by omega, le_rfl, by omega, fun hfirst => Int.not_lt.mp fun hbelow => hfirst ?_⟩
      rwa [show s.right + 1 = first by omega] at htype
  · have hge : s.left ≤ left := by
      rcases hmatch with rfl | hentry
      · exact le_rfl
      · have hfrom := hentry.1
        omega
    refine Or.inr ⟨by omega, ?_, ?_, fun _ => hlow.trans hge⟩
    · rcases hmatch with rfl | hentry
      · exact hlt.le
      · exact hentry.2.1
    · rcases hright with hsame | hentry
      · exact hsame.le
      · have hupto := hentry.2.1
        omega

/-! ## Without a wrap of the address -/

/-- The exact matches so far could have brought the address past the greatest. -/
def Far (first : ℤ) (addr : Word) (left : ℤ) : Prop :=
  2 ^ 32 ≤ addr.toNat + (left - first + 1).toNat

/-- The variables of a search for `addr` whose address has not wrapped around. -/
structure Tidy (stab : ℤ → Stab) (first : ℤ) (addr : Word) (s : Search) : Prop where
  low : first ≤ s.left
  left : s.left ≤ s.l
  right : s.left ≤ s.r
  same : s.right = s.r
  bound : s.addr.toNat ≤ addr.toNat + (s.left - first + 1).toNat
  exact : s.left = s.l → s.left = first ∧ s.addr = addr ∨
    (stab s.left).nValue + 1 = s.addr ∧
      (stab s.left).nValue.toNat ≤ addr.toNat + (s.left - first).toNat

/-- A search leaves its left bound at or before the right one, unless the address has wrapped
around. -/
theorem Searches.tidy (hreads : Reads stabs stab first last)
    (hfirst : (stab first).nType = type → (stab first).nValue ≤ addr) {s s' : Search}
    (hrun : Searches stabs type s s') (hl : first ≤ s.l) (hr : s.r ≤ last)
    (htidy : Tidy stab first addr s) :
    s'.left ≤ s'.right ∨ Far first addr s'.left ∧ s'.left = s'.right + 1 := by
  induction hrun with
  | @done s hend => exact Or.inl (htidy.same ▸ htidy.right)
  | @step s t s' hle hstep hrun ih =>
    obtain ⟨hlow, hleft, hright, hsame, haddr, hexact⟩ := htidy
    have hmiddle := middle_mem hle
    rcases probe_spec type hreads hl hr hle with ⟨hprobe, -⟩ | ⟨m, ⟨⟨hml, hmr, hmt⟩, -⟩, hcases⟩
    · obtain rfl := Option.some.inj (hstep.symm.trans hprobe)
      refine ih (by dsimp only; omega) hr ⟨hlow, by dsimp only; omega, hright, hsame, haddr, ?_⟩
      dsimp only
      omega
    · rcases hcases with ⟨-, hprobe⟩ | ⟨habove, hprobe⟩ | ⟨hvalue, hprobe⟩
      · obtain rfl := Option.some.inj (hstep.symm.trans hprobe)
        refine ih (by dsimp only; omega) hr ⟨by dsimp only; omega, by dsimp only; omega,
          by dsimp only; omega, hsame, by dsimp only; omega, ?_⟩
        dsimp only
        omega
      · obtain rfl := Option.some.inj (hstep.symm.trans hprobe)
        by_cases hm : s.left = m
        · -- the entry that matched before is above the address only after a wrap
          have hsl : s.left = s.l := by omega
          rw [← hm] at habove hmt
          rcases hexact hsl with ⟨hunset, hstart⟩ | ⟨hnext, hvalue⟩
          · rw [hunset] at habove hmt
            rw [hstart] at habove
            exact absurd habove (BitVec.not_lt.mpr (hfirst hmt))
          · have hfar : Far first addr s.left := by
              rw [Far]
              have hmax : (stab s.left).nValue.toNat = 2 ^ 32 - 1 := by bv_omega
              omega
            cases hrun with
            | done hend => exact Or.inr ⟨hfar, by dsimp only; omega⟩
            | step hle' _ _ =>
              dsimp only at hle'
              omega
        · refine ih hl (by dsimp only; omega) ⟨hlow, hleft, by dsimp only; omega, rfl, haddr, ?_⟩
          exact hexact
      · obtain rfl := Option.some.inj (hstep.symm.trans hprobe)
        have hreached : s.addr.toNat ≤ addr.toNat + (m - first).toNat := by
          by_cases hm : s.left = m
          · rcases hexact (by omega) with ⟨-, hstart⟩ | ⟨hnext, -⟩
            · rw [hstart]
              exact Nat.le_add_right _ _
            · rw [hm, hvalue] at hnext
              bv_omega
          · omega
        have hnext : (s.addr + 1).toNat ≤ s.addr.toNat + 1 := by
          rw [BitVec.toNat_add]
          exact Nat.mod_le _ _
        refine ih (hl.trans hml) hr ⟨by dsimp only; omega, le_rfl, by dsimp only; omega, hsame,
          by dsimp only; omega, fun _ => Or.inr ⟨?_, ?_⟩⟩
        · rw [hvalue]
        · dsimp only
          rw [hvalue]
          exact hreached

/-- The left bound is an entry of the type, unless it is where the region begins or the address
has wrapped around. -/
theorem stabBinsearch_left (hreads : Reads stabs stab first last)
    (hfirst : (stab first).nType = type → (stab first).nValue ≤ addr) {left right : ℤ}
    (hresult : stabBinsearch stabs type first last addr = some (left, right)) :
    left = first ∨ EntryIn stab type first last left ∨ Far first addr (left + 1) := by
  obtain ⟨s, left', right', hrun, hends, hbrackets, hresult'⟩ :=
    stabBinsearch_spec type hreads addr
  obtain ⟨rfl, rfl⟩ := Prod.mk.inj (Option.some.inj (hresult.symm.trans hresult'))
  obtain ⟨hleft, hright, hnone, -⟩ := hends
  dsimp only [Search.start] at hleft hright hnone
  have hclean (hyes : s.anyMatches = true) :
      s.left ≤ s.right ∨ Far first addr s.left ∧ s.left = s.right + 1 :=
    hrun.tidy hreads hfirst le_rfl le_rfl ⟨le_rfl, le_rfl, hrun.nonempty hyes, rfl,
      Nat.le_add_right _ _, fun _ => Or.inl ⟨rfl, rfl⟩⟩
  rcases hbrackets with ⟨hno, rfl, -⟩ | ⟨hyes, hle, rfl, -⟩ | ⟨hyes, hlt, rfl, hmatch, -⟩
  · exact Or.inl (hnone hno).1
  · rcases hclean hyes with hordered | ⟨hfar, hsame⟩
    · have hsame : s.right = s.left := le_antisymm hle hordered
      rw [hsame]
      exact hleft.imp_right Or.inl
    · exact Or.inr (Or.inr (hsame ▸ hfar))
  · rcases hmatch with rfl | ⟨hfrom, hupto, htype⟩
    · exact hleft.imp_right Or.inl
    · have hlow : first ≤ s.left := hleft.elim Eq.ge fun h => h.1
      have hhigh : s.right ≤ last := by
        rcases hright with hsame | hentry
        · exact hsame.le
        · have hnext := hentry.2.1
          omega
      exact Or.inr (Or.inl ⟨by omega, hupto.trans hhigh, htype⟩)

end Bounds

end OsLabs.Jos
