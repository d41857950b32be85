import TrustedGrub.Loader.ModuleArgs

/-!
# The tokens of a module's line

The new line has the tokens of the old one when everything fits in the arrays, and when no dialog
stands behind an even number of blanks, where `load_module` takes the last blank for a part of it.
-/

namespace TrustedGrub.Loader
open Fips180 (Byte)
open Disk (isspace)
open Boot (cString)
open Words (words pieces)

/-- A token that is replaced. -/
def IsDialog (token : List Byte) : Prop := token = dialog ∨ token = dialog ++ [0x22]

instance (token : List Byte) : Decidable (IsDialog token) := inferInstanceAs (Decidable (_ ∨ _))

/-- How much is typed for `d` questions, from the `k`-th on. -/
def typed (answers : Nat → List Byte) : Nat → Nat → Nat
  | _, 0 => 0
  | k, d + 1 => (answers k).length + typed answers (k + 1) d

/-- How many pieces are dialogs. -/
def dialogs (ps : List (List Byte)) : Nat := ps.countP fun w => IsDialog w

/-- Whether the line ends with a dialog. -/
def endsWithDialog (ps : List (List Byte)) : Prop := ∃ w, ps.getLast? = some w ∧ IsDialog w

/-- No dialog has a blank before it in its piece. -/
def Apart (ps : List (List Byte)) : Prop := ∀ c token, isspace c = true → IsDialog token → c :: token ∉ ps

/-- `load_module` can deal with the line. -/
structure Fits (answers : Nat → List Byte) (arg : List Byte) : Prop where
  count : (pieces isspace arg).length ≤ 10
  rows : ∀ w ∈ pieces isspace arg, w.length < maxlen
  /-- The NUL of the line is stored too. -/
  last : ∀ w ∈ (pieces isspace arg).getLast?, w.length + 1 < maxlen
  apart : Apart (pieces isspace arg)
  /-- A password may have eight characters, or seven at the end of the line, or what others leave. -/
  room : typed answers 0 (dialogs (pieces isspace arg)) < 9 * dialogs (pieces isspace arg)
  roomLast : endsWithDialog (pieces isspace arg) →
    typed answers 0 (dialogs (pieces isspace arg)) + 1 < 9 * dialogs (pieces isspace arg)

section Tokens
variable {answers : Nat → List Byte} {k : Nat} {w : List Byte} {ws : List (List Byte)}

theorem replacement_isDialog {pass : List Byte} : replacement pass w = none ↔ ¬ IsDialog w := by
  rw [replacement_none, IsDialog, not_or]

/-! ## Length -/

theorem replacement_length {pass s : List Byte} (hs : replacement pass w = some s) : s.length + 9 = w.length + pass.length := by
  obtain ⟨rfl, rfl⟩ | ⟨rfl, rfl⟩ := replacement_some hs
  · unfold passwordOption dialog
    simp only [List.length_append, List.length_cons, List.length_nil]
    omega
  · unfold passwordOption dialog
    simp only [List.length_append, List.length_cons, List.length_nil]
    omega

theorem endsWithDialog_singleton : endsWithDialog [w] ↔ IsDialog w := by
  unfold endsWithDialog
  simp

theorem endsWithDialog_cons (hws : ws ≠ []) : endsWithDialog (w :: ws) ↔ endsWithDialog ws := by
  unfold endsWithDialog
  cases ws with
  | nil => exact absurd rfl hws
  | cons v vs => rw [List.getLast?_cons_cons]

/-- A dialog takes nine characters more than the option, without the password. -/
theorem joined_length (hws : ws ≠ []) :
    (endsWithDialog ws → (joined answers k ws).length + 9 * dialogs ws + 1 =
      typed answers k (dialogs ws) + (ws.map List.length).sum + ws.length + 1) ∧
    (¬ endsWithDialog ws → (joined answers k ws).length + 9 * dialogs ws + 1 =
      typed answers k (dialogs ws) + (ws.map List.length).sum + ws.length) := by
  induction ws generalizing k with
  | nil => exact absurd rfl hws
  | cons w ws ih =>
    have hsum : ((w :: ws).map List.length).sum = w.length + (ws.map List.length).sum := rfl
    rw [hsum, List.length_cons]
    rcases hs : replacement (answers k) w with _ | s
    case some =>
      have hw : IsDialog w := by
        by_contra h
        rw [replacement_isDialog.2 h] at hs
        cases hs
      have hcount : dialogs (w :: ws) = dialogs ws + 1 := List.countP_cons_of_pos (decide_eq_true hw)
      have hlength := replacement_length hs
      rw [joined_dialog hs, hcount, typed]
      simp only [List.length_append, List.length_singleton]
      by_cases hlast : ws = []
      · subst hlast
        rw [endsWithDialog_singleton]
        refine ⟨fun _ => ?_, fun h => absurd hw h⟩
        show s.length + 1 + 0 + 9 * (0 + 1) + 1 = (answers k).length + 0 + (w.length + 0) + (0 + 1) + 1
        omega
      · rw [endsWithDialog_cons hlast]
        have hrest := ih (k := k + 1) hlast
        exact ⟨fun h => by have := hrest.1 h; omega, fun h => by have := hrest.2 h; omega⟩
    case none =>
      have hw := replacement_isDialog.1 hs
      have hcount : dialogs (w :: ws) = dialogs ws := List.countP_cons_of_neg (by simpa using hw)
      rw [joined_plain hs, hcount, List.length_append]
      by_cases hlast : ws = []
      · subst hlast
        rw [endsWithDialog_singleton, if_pos rfl]
        refine ⟨fun h => absurd h hw, fun _ => ?_⟩
        show w.length + 0 + 9 * 0 + 1 = 0 + (w.length + 0) + (0 + 1)
        omega
      · rw [endsWithDialog_cons hlast, if_neg hlast, List.length_append, List.length_singleton]
        have hrest := ih (k := k) hlast
        exact ⟨fun h => by have := hrest.1 h; omega, fun h => by have := hrest.2 h; omega⟩

/-! ## Tokens -/

theorem words_passwordOption (pass after : List Byte) :
    words isspace (passwordOption pass ++ after) =
      [0x2D, 0x2D, 0x70, 0x61, 0x73, 0x73, 0x77, 0x6F, 0x72, 0x64] :: words isspace (0x27 :: (pass ++ 0x27 :: after)) := by
  have hsplit : passwordOption pass ++ after =
      [0x2D, 0x2D, 0x70, 0x61, 0x73, 0x73, 0x77, 0x6F, 0x72, 0x64] ++ 0x20 :: 0x27 :: (pass ++ 0x27 :: after) := by
    unfold passwordOption
    simp
  rw [hsplit]
  exact Words.words_free_append (by decide) (List.cons_ne_nil _ _) (by decide) _

/-- A dialog is not the first token that it is replaced by. -/
theorem replacement_differs {pass s : List Byte} (hs : replacement pass w = some s) {others others' : List (List Byte)} :
    w :: others ≠ words isspace s ++ others' := by
  intro heq
  obtain ⟨rfl, rfl⟩ | ⟨rfl, rfl⟩ := replacement_some hs
  · have hwords := words_passwordOption pass []
    rw [List.append_nil] at hwords
    rw [hwords, List.cons_append] at heq
    exact absurd (List.cons.inj heq).1 (by decide)
  · rw [words_passwordOption, List.cons_append] at heq
    exact absurd (List.cons.inj heq).1 (by decide)

theorem words_joined_dialog {s : List Byte} (hs : replacement (answers k) w = some s) :
    words isspace (joined answers k (w :: ws)) = words isspace s ++ words isspace (joined answers (k + 1) ws) := by
  rw [joined_dialog hs, List.append_assoc, List.singleton_append, Words.words_append (by decide)]

theorem words_joined_plain (hs : replacement (answers k) w = none) :
    words isspace (joined answers k (w :: ws)) = words isspace w ++ words isspace (joined answers k ws) := by
  rw [joined_plain hs]
  by_cases hlast : ws = []
  · subst hlast
    rw [if_pos rfl, joined, Words.words_nil, List.append_nil, List.append_nil]
  · rw [if_neg hlast, List.append_assoc, List.singleton_append, Words.words_append (by decide)]

theorem replaced_dialog {s : List Byte} (hs : replacement (answers k) w = some s) :
    replaced answers k (w :: ws) = words isspace s ++ replaced answers (k + 1) ws := by
  rw [replaced, hs]

theorem replaced_plain (hs : replacement (answers k) w = none) : replaced answers k (w :: ws) = w :: replaced answers k ws := by
  rw [replaced, hs]

/-- A blank does not begin a dialog. -/
theorem replacement_blank {c : Byte} (hc : isspace c = true) (pass v : List Byte) : replacement pass (c :: v) = none := by
  have hdash : c ≠ 0x2D := by
    rintro rfl
    exact absurd hc (by decide)
  refine replacement_none.2 ⟨fun h => hdash ?_, fun h => hdash ?_⟩
  · exact (List.cons.inj h).1
  · exact (List.cons.inj h).1

theorem apart_cons : Apart (w :: ws) ↔ (∀ c token, isspace c = true → IsDialog token → c :: token ≠ w) ∧ Apart ws := by
  unfold Apart
  simp only [List.mem_cons, not_or]
  exact ⟨fun h => ⟨fun c token hc ht => (h c token hc ht).1, fun c token hc ht => (h c token hc ht).2⟩,
    fun h c token hc ht => ⟨h.1 c token hc ht, h.2 c token hc ht⟩⟩

/-- The tokens are the right ones exactly when no dialog is taken for another token. -/
theorem words_joined_iff (hws : ∀ w ∈ ws, ∀ c ∈ w.tail, isspace c = false) :
    words isspace (joined answers k ws) = replaced answers k (ws.flatMap (words isspace)) ↔ Apart ws := by
  induction ws generalizing k with
  | nil => exact iff_of_true rfl fun _ _ _ _ => List.not_mem_nil
  | cons w ws ih =>
    have hrest := fun k => ih (k := k) fun v hv => hws v (List.mem_cons_of_mem _ hv)
    have htail := hws w List.mem_cons_self
    rw [List.flatMap_cons, apart_cons]
    by_cases hblank : ∃ c v, w = c :: v ∧ isspace c = true
    · obtain ⟨c, v, rfl, hc⟩ := hblank
      have hfirst : (∀ c' token, isspace c' = true → IsDialog token → c' :: token ≠ c :: v) ↔ ¬ IsDialog v := by
        refine ⟨fun h hv => h c v hc hv rfl, fun h c' token _ ht heq => h ?_⟩
        rw [← (List.cons.inj heq).2]
        exact ht
      rw [words_joined_plain (replacement_blank hc ..), Words.words_cons hc, hfirst]
      by_cases hv : v = []
      · subst hv
        rw [Words.words_nil, List.nil_append, List.nil_append, hrest k]
        exact (and_iff_right (by decide)).symm
      · have hword : words isspace v = [v] := Words.words_of_free htail hv
        rw [hword, List.singleton_append, List.singleton_append]
        rcases hs : replacement (answers k) v with _ | s
        · rw [replaced_plain hs, List.cons.injEq, hrest k]
          exact and_congr_left fun _ => iff_of_true rfl (replacement_isDialog.1 hs)
        · have hdialog : IsDialog v := by
            by_contra h
            rw [replacement_isDialog.2 h] at hs
            cases hs
          rw [replaced_dialog hs]
          exact iff_of_false (replacement_differs hs) fun h => h.1 hdialog
    · have hfirst : ∀ c token, isspace c = true → IsDialog token → c :: token ≠ w := fun c token hc _ heq => hblank ⟨c, token, heq.symm, hc⟩
      rw [and_iff_right hfirst]
      have hfree : ∀ c ∈ w, isspace c = false := by
        cases w with
        | nil => exact fun c hc => absurd hc List.not_mem_nil
        | cons c v => exact List.forall_mem_cons.2 ⟨by simpa using fun hc => hblank ⟨c, v, rfl, hc⟩, htail⟩
      rcases hs : replacement (answers k) w with _ | s
      case some =>
        have hne : w ≠ [] := by
          rintro rfl
          rw [replacement_none.2 ⟨by decide, by decide⟩] at hs
          cases hs
        rw [words_joined_dialog hs, Words.words_of_free hfree hne, List.singleton_append, replaced_dialog hs, List.append_right_inj]
        exact hrest (k + 1)
      case none =>
        rw [words_joined_plain hs]
        by_cases hne : w = []
        · subst hne
          exact hrest k
        · rw [Words.words_of_free hfree hne, List.singleton_append, List.singleton_append, replaced_plain hs, List.cons.injEq]
          exact (and_iff_right rfl).trans (hrest k)

end Tokens

/-! ## The line -/

/-- A line that is not looked at has no dialogs. -/
theorem grubStrstr_none {s2 s1 : List Byte} (hs2 : s2 ≠ []) (h : grubStrstr s2 s1 = none) : ¬ s2 <:+: s1 := by
  induction s1 with
  | nil =>
    intro hin
    exact hs2 (List.infix_nil.1 hin)
  | cons c s1 ih =>
    rw [grubStrstr] at h
    split at h
    · cases h
    next hno =>
      intro hin
      rcases List.infix_cons_iff.1 hin with hprefix | hin
      · exact hno ⟨hs2, List.isPrefixOf_iff_prefix.2 hprefix⟩
      · exact ih h hin

theorem replaced_eq_self {answers : Nat → List Byte} {k : Nat} {tokens : List (List Byte)} (h : ∀ token ∈ tokens, ¬ IsDialog token) :
    replaced answers k tokens = tokens := by
  induction tokens with
  | nil => rfl
  | cons token tokens ih =>
    have hfirst : replacement (answers k) token = none := replacement_isDialog.2 (h token List.mem_cons_self)
    rw [replaced_plain hfirst, ih fun v hv => h v (List.mem_cons_of_mem _ hv)]

theorem cString_append {s : List Byte} (h : 0 ∉ s) (after : List Byte) : cString (s ++ 0 :: after) = s := by
  have hall : ∀ c ∈ s, decide (c ≠ 0) = true := fun c hc => decide_eq_true fun hzero => h (hzero ▸ hc)
  rw [cString, List.takeWhile_append_of_pos hall, List.takeWhile_cons_of_neg (by decide), List.append_nil]

theorem cString_padded {n : Nat} {text : List Byte} (h : 0 ∉ text) (hn : text.length < n) : cString (padded n text) = text := by
  obtain ⟨k, hk⟩ : ∃ k, n - text.length = k + 1 := ⟨n - text.length - 1, by omega⟩
  rw [padded, hk, List.replicate_succ, cString_append h]

/-- The new line is shorter than the old exactly when the passwords are. -/
theorem joined_shorter {answers : Nat → List Byte} {arg : List Byte} :
    (joined answers 0 (pieces isspace arg)).length < arg.length ↔
      typed answers 0 (dialogs (pieces isspace arg)) < 9 * dialogs (pieces isspace arg) ∧
        (endsWithDialog (pieces isspace arg) → typed answers 0 (dialogs (pieces isspace arg)) + 1 < 9 * dialogs (pieces isspace arg)) := by
  have hsum : ((pieces isspace arg).map List.length).sum + (pieces isspace arg).length = arg.length + 1 := Words.pieces_sum arg
  obtain ⟨hends, hgoes⟩ := @joined_length answers 0 _ (@Words.pieces_ne_nil _ isspace arg)
  by_cases h : endsWithDialog (pieces isspace arg)
  · have hlength := hends h
    rw [imp_iff_right h]
    omega
  · have hlength := hgoes h
    rw [and_iff_left fun hh => absurd hh h]
    omega

/-- **When the module's line is right.** `load_module` leaves it alone when it does not contain the text of the dialog. Otherwise its tokens
are the same, with the dialogs replaced, exactly when there is room in the arrays and each dialog is found. -/
theorem rewritten_iff {answers : Nat → List Byte} (hanswers : ∀ k, 0 ∉ answers k) (stack : Nat → Nat → Byte) {arg : List Byte}
    (harg : 0 ∉ arg) :
    Rewritten answers stack arg ↔ grubStrstr dialog arg = none ∨ Fits answers arg := by
  rcases hdialog : grubStrstr dialog arg with _ | found
  case none =>
    refine iff_of_true ⟨arg ++ [0], ?_, ?_⟩ (.inl rfl)
    · unfold rewriteArguments
      rw [hdialog]
      rfl
    · rw [cString_append harg, replaced_eq_self]
      intro token htoken hdialog'
      apply grubStrstr_none (by decide) hdialog
      have hin := Words.infix_of_mem_words htoken
      rcases hdialog' with rfl | rfl
      · exact hin
      · exact (List.prefix_append ..).isInfix.trans hin
  case some =>
    have hsome : (grubStrstr dialog arg).isSome := by rw [hdialog]; rfl
    have hfree : ∀ w ∈ pieces isspace arg, ∀ c ∈ w.tail, isspace c = false := fun w hw => Words.tail_free hw
    have hwords : (pieces isspace arg).flatMap (words isspace) = words isspace arg := Words.words_pieces arg
    have hstring : 0 ∉ joined answers 0 (pieces isspace arg) := joined_string hanswers (fun w hw h => harg (Words.mem_of_mem_pieces hw h)) 0
    have happly := fun line => @rewriteArguments_iff answers hanswers arg harg stack hsome line
    rw [or_iff_right (by simp)]
    constructor
    · rintro ⟨line, hline, htokens⟩
      obtain ⟨⟨hcount, hslots⟩, hshorter, rfl⟩ := (happly line).1 hline
      rw [cString_padded hstring (by omega), ← hwords, words_joined_iff hfree] at htokens
      obtain ⟨hrows, hlast⟩ := ArgTable.slots_iff.1 hslots
      obtain ⟨hroom, hroomLast⟩ := joined_shorter.1 hshorter
      exact ⟨hcount, hrows, hlast, htokens, hroom, hroomLast⟩
    · intro h
      have hshorter := joined_shorter.2 ⟨h.room, h.roomLast⟩
      refine ⟨_, (happly _).2 ⟨⟨h.count, ArgTable.slots_iff.2 ⟨h.rows, h.last⟩⟩, hshorter, rfl⟩, ?_⟩
      rw [cString_padded hstring (by omega), ← hwords, words_joined_iff hfree]
      exact h.apart

/-- `m --with-password-dialog` -/
def dialogLine : List Byte := [0x6D, 0x20] ++ dialog

theorem fits_dialogLine : Fits (fun _ => [0x70, 0x77]) dialogLine where
  count := by decide
  rows := by decide
  last := by decide
  apart := by
    intro c token hc _ hmem
    have hpieces : pieces isspace dialogLine = [[0x6D], dialog] := by decide
    rw [hpieces] at hmem
    rcases List.mem_pair.1 hmem with heq | heq
    · exact absurd hc ((List.cons.inj heq).1 ▸ by decide)
    · exact absurd hc ((List.cons.inj heq).1 ▸ by decide)
  room := by decide
  roomLast _ := by decide

theorem rewritten_dialogLine : Rewritten (fun _ => [0x70, 0x77]) (fun _ _ => 0) dialogLine :=
  (rewritten_iff (fun _ => by decide) _ (by decide)).2 (.inr fits_dialogLine)

/-- The eleventh token is stored behind the table. -/
theorem eleventh_token : ¬ Rewritten (fun _ => [0x70, 0x77]) (fun _ _ => 0)
    ([0x6D, 0x20, 0x61, 0x20, 0x62, 0x20, 0x63, 0x20, 0x64, 0x20, 0x65, 0x20, 0x66, 0x20, 0x67, 0x20, 0x68, 0x20, 0x69, 0x20] ++
      dialog) := by
  rintro ⟨line, hline, -⟩
  have hoverrun : rewriteArguments (fun _ => [0x70, 0x77]) (fun _ _ => 0)
      ([0x6D, 0x20, 0x61, 0x20, 0x62, 0x20, 0x63, 0x20, 0x64, 0x20, 0x65, 0x20, 0x66, 0x20, 0x67, 0x20, 0x68, 0x20, 0x69, 0x20] ++ dialog) =
        none := by
    decide
  rw [hoverrun] at hline
  cases hline

end TrustedGrub.Loader
