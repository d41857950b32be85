import TrustedGrub.Menu.RunMenu

/-!
# The search in the menu

`search_menu` goes through the entries once around, from the one that the bar is on or from the next one, and leaves the
bar on the first that has the text in it.
-/

namespace TrustedGrub.Menu
variable {text : Int → List Char} {buf : List Char} {n current direction i found : Int} {passes t : Nat}

/-- The entry at which a search is after some passes. -/
def around (n current direction : Int) (t : Nat) : Int := (current + direction * t) % n

/-- What a search through all of the entries comes to. -/
inductive Searched (text : Int → List Char) (buf : List Char) (n current direction : Int) : Int → Prop where
  | found (t : Nat) (ht : t < n) (h : occurs buf (text (around n current direction t)) = true)
      (hfirst : ∀ u < t, occurs buf (text (around n current direction u)) = false) :
          Searched text buf n current direction (around n current direction t)
  | nothing (h : ∀ i, 0 ≤ i → i < n → occurs buf (text i) = false) : Searched text buf n current direction (-1)

/-! ## Once around -/

theorem around_range (hn : 0 < n) (t : Nat) : 0 ≤ around n current direction t ∧ around n current direction t < n :=
  ⟨Int.emod_nonneg _ (Int.ne_of_gt hn), Int.emod_lt_of_pos _ hn⟩

theorem around_zero (hlow : 0 ≤ current) (hhigh : current < n) : around n current direction 0 = current := by
  unfold around
  rw [Int.natCast_zero, Int.mul_zero, Int.add_zero, Int.emod_eq_of_lt hlow hhigh]

/-- The entry behind the last is the first, and the one before the first is the last. -/
theorem around_succ (hn : 0 < n) (hdir : direction = 1 ∨ direction = -1) (t : Nat) :
    (let i := around n current direction t
     let i := if direction = -1 ∧ i = 0 then n else i
     let i := i + direction
     if direction = 1 ∧ i = n then 0 else i) = around n current direction (t + 1) := by
  obtain ⟨hlow, hhigh⟩ := @around_range n current direction hn t
  have hnext : around n current direction (t + 1) = (around n current direction t + direction) % n := by
    unfold around
    rw [Int.emod_add_emod, Int.natCast_succ, Int.mul_add, Int.mul_one, Int.add_assoc]
  rw [hnext]
  generalize around n current direction t = i at hlow hhigh ⊢
  dsimp only
  obtain rfl | rfl := hdir
  · have hforwards : ¬ ((1 : Int) = -1 ∧ i = 0) := fun h => absurd h.1 (by decide)
    rw [if_neg hforwards]
    by_cases hlast : i + 1 = n
    · rw [if_pos ⟨rfl, hlast⟩, hlast, Int.emod_self]
    · rw [if_neg fun h => hlast h.2, Int.emod_eq_of_lt (by omega) (by omega)]
  · rw [if_neg fun h => absurd h.1 (by decide)]
    by_cases hfirst : i = 0
    · rw [if_pos ⟨rfl, hfirst⟩, hfirst, ← Int.add_emod_right, Int.emod_eq_of_lt (by omega) (by omega)]
      omega
    · rw [if_neg fun h => hfirst h.2, Int.emod_eq_of_lt (by omega) (by omega)]

/-- A search does not come back before it has been at every entry. -/
theorem around_ne_current (hlow : 0 ≤ current) (hhigh : current < n) (hdir : direction = 1 ∨ direction = -1) (ht : 0 < t) (htn : t < n) :
    around n current direction t ≠ current := by
  intro h
  have hmod : (current + direction * t) % n = current % n := by
    rw [Int.emod_eq_of_lt hlow hhigh]
    exact h
  have hzero := Int.emod_eq_emod_iff_emod_sub_eq_zero.1 hmod
  rw [add_sub_cancel_left] at hzero
  have hdvd : n ∣ (t : Int) := by
    obtain rfl | rfl := hdir
    · rw [Int.one_mul] at hzero
      exact Int.dvd_of_emod_eq_zero hzero
    · rw [Int.neg_one_mul] at hzero
      exact Int.dvd_neg.1 (Int.dvd_of_emod_eq_zero hzero)
  have hle := Int.le_of_dvd (by omega) hdvd
  omega

theorem around_eq_current (hlow : 0 ≤ current) (hhigh : current < n) (ht : (t : Int) = n) : around n current direction t = current := by
  unfold around
  rw [ht, Int.add_mul_emod_self_right, Int.emod_eq_of_lt hlow hhigh]

/-- Every entry has its pass. -/
theorem around_surj (hdir : direction = 1 ∨ direction = -1) (hlow : 0 ≤ i) (hhigh : i < n) :
    ∃ t : Nat, (t : Int) < n ∧ around n current direction t = i := by
  have hn : 0 < n := by omega
  obtain ⟨t, ht⟩ := Int.eq_ofNat_of_zero_le (Int.emod_nonneg (direction * (i - current)) (Int.ne_of_gt hn))
  refine ⟨t, ?_, ?_⟩
  · rw [← ht]
    exact Int.emod_lt_of_pos _ hn
  · have hsquare : direction * direction = 1 := by
      obtain rfl | rfl := hdir
      · rfl
      · rfl
    unfold around
    rw [← ht, Int.add_emod, Int.mul_emod, Int.emod_emod, ← Int.mul_emod, ← Int.add_emod, ← Int.mul_assoc, hsquare, Int.one_mul,
      add_sub_cancel, Int.emod_eq_of_lt hlow hhigh]

/-! ## The loop -/

/-- The passes from the entry number `t` of a search on, when those before have nothing: the induction is on the passes that
are left, which are as many as the entries. -/
theorem searchLoop_searched (hlow : 0 ≤ current) (hhigh : current < n) (hdir : direction = 1 ∨ direction = -1) (ht : (t : Int) < n)
    (hleft : n ≤ t + passes) (hbefore : ∀ u < t, occurs buf (text (around n current direction u)) = false) :
    ∃ found, searchLoop text buf n current direction passes (around n current direction t) = some found ∧
      Searched text buf n current direction found := by
  induction passes generalizing t with
  | zero => omega
  | succ passes ih =>
    rw [searchLoop]
    by_cases hfound : occurs buf (text (around n current direction t)) = true
    · rw [if_pos hfound]
      exact ⟨_, rfl, .found t ht hfound hbefore⟩
    · have hbefore : ∀ u < t + 1, occurs buf (text (around n current direction u)) = false := by
        intro u hu
        obtain hu | rfl := Nat.lt_succ_iff_lt_or_eq.1 hu
        · exact hbefore u hu
        · exact Bool.eq_false_iff.2 hfound
      have hnext := @around_succ n current direction (by omega) hdir t
      dsimp only at hnext ⊢
      rw [if_neg hfound, hnext]
      by_cases hend : ((t + 1 : Nat) : Int) = n
      · rw [if_neg fun hne => hne (around_eq_current hlow hhigh hend)]
        refine ⟨_, rfl, .nothing fun i hi hin => ?_⟩
        obtain ⟨u, hu, rfl⟩ := @around_surj n current direction i hdir hi hin
        exact hbefore u (by omega)
      · rw [if_pos (around_ne_current hlow hhigh hdir (Nat.succ_pos t) (by omega))]
        exact ih (by omega) (by omega) hbefore

/-! ## The bar -/

variable {s s' : RunMenu} {k : Key}

def delta (backwards : Bool) : Int := if backwards then -1 else 1

/-- The entry at which a search begins. -/
def searchFrom (n current : Int) (backwards advance : Bool) : Int :=
  around n current (delta backwards) (if advance then 1 else 0)

theorem delta_cases (backwards : Bool) : delta backwards = 1 ∨ delta backwards = -1 := by
  cases backwards with
  | false => exact .inl rfl
  | true => exact .inr rfl

theorem searchFrom_eq (hlow : 0 ≤ current) (hhigh : current < n) (backwards advance : Bool) :
    (if advance then
      if current + delta backwards < 0 then n - 1 else if current + delta backwards = n then 0 else current + delta backwards
    else current) = searchFrom n current backwards advance := by
  cases advance with
  | false => exact (around_zero hlow hhigh).symm
  | true =>
    show (if current + delta backwards < 0 then n - 1 else if current + delta backwards = n then 0 else current + delta backwards) = _
    have hfrom : searchFrom n current backwards true = (current + delta backwards) % n := by
      show (current + delta backwards * 1) % n = _
      rw [Int.mul_one]
    rw [hfrom]
    obtain hdelta | hdelta := delta_cases backwards
    · rw [hdelta, if_neg (by omega)]
      split
      next hlast => rw [hlast, Int.emod_self]
      next hlast => rw [Int.emod_eq_of_lt (by omega) (by omega)]
    · rw [hdelta]
      split
      next hfirst =>
        rw [← Int.add_emod_right, Int.emod_eq_of_lt (by omega) (by omega)]
        omega
      next hfirst => rw [if_neg (by omega), Int.emod_eq_of_lt (by omega) (by omega)]

theorem searchFrom_range (hn : 0 < n) (current : Int) (backwards advance : Bool) :
    0 ≤ searchFrom n current backwards advance ∧ searchFrom n current backwards advance < n := around_range hn _

theorem searchMenu_eq (hlow : 0 ≤ s.bar.entry) (hhigh : s.bar.entry < s.numEntries) (backwards advance : Bool) :
    s.searchMenu k backwards advance =
      (searchLoop k.text s.searchBuf s.numEntries (searchFrom s.numEntries s.bar.entry backwards advance) (delta backwards) k.passes
        (searchFrom s.numEntries s.bar.entry backwards advance)).map
          fun found => (found, if found = -1 then s else { s with bar := setBarTo s.numEntries found }) := by
  rw [← searchFrom_eq hlow hhigh]
  unfold RunMenu.searchMenu delta
  dsimp only
  split
  next hloop =>
    rw [hloop]
    rfl
  next hloop =>
    rw [hloop]
    rfl

/-- `search_menu` ends after a pass for each entry at most. It finds the first entry in its direction that has the text in it and
leaves the bar on it, or there is none, and the bar stays where it is. -/
theorem searchMenu_finds (hlow : 0 ≤ s.bar.entry) (hhigh : s.bar.entry < s.numEntries) (hpasses : s.numEntries ≤ k.passes)
    (backwards advance : Bool) : ∃ found, s.searchMenu k backwards advance =
        some (found, if found = -1 then s else { s with bar := setBarTo s.numEntries found }) ∧
      Searched k.text s.searchBuf s.numEntries (searchFrom s.numEntries s.bar.entry backwards advance) (delta backwards) found := by
  have hn : 0 < s.numEntries := by omega
  have hfrom := searchFrom_range hn s.bar.entry backwards advance
  obtain ⟨found, hloop, hfound⟩ := @searchLoop_searched k.text s.searchBuf s.numEntries _ (delta backwards) k.passes 0 hfrom.1 hfrom.2
    (delta_cases backwards) (by omega) (by omega) fun u hu => absurd hu (Nat.not_lt_zero u)
  rw [around_zero hfrom.1 hfrom.2] at hloop
  refine ⟨found, ?_, hfound⟩
  rw [searchMenu_eq hlow hhigh]
  exact congrArg (Option.map _) hloop

/-- A menu of twenty entries with its bar on the second, and the key that searches it backwards. One entry has an `X` in it. -/
def searchedMenu : RunMenu := { RunMenu.start 20 ⟨0, 1⟩ true false with searchBuf := ['x'] }

def searchedKey : Key where
  c := 0x4E
  text i := if i = 18 then ['X'] else ['a']
  passes := 20
  older := false
  locked := false
  leaves := false
  toggles := false
  fallback := none
  dumb := false

theorem searchMenu_finds_backwards : searchedMenu.searchMenu searchedKey true true = some (18, { searchedMenu with bar := ⟨8, 10⟩ }) ∧
    Searched searchedKey.text ['x'] 20 0 (-1) 18 := by
  obtain ⟨found, hsearch, hfound⟩ := searchMenu_finds (s := searchedMenu) (k := searchedKey) (by decide) (by decide) (by decide) true true
  have hrun : searchedMenu.searchMenu searchedKey true true = some (18, { searchedMenu with bar := ⟨8, 10⟩ }) := rfl
  obtain ⟨hsame, -⟩ := Prod.mk.inj (Option.some.inj (hrun.symm.trans hsearch))
  exact ⟨hrun, hsame ▸ hfound⟩

end TrustedGrub.Menu
