import Lox.CommandLine

/-!
# Words and parentheses

The shape of a printed tree: words, and lists of shapes between parentheses. A blank, a line end or
a parenthesis ends a word, so lines with shapes whose words contain none of these determine the
shapes: `Shape.lines_inj`.
-/

namespace Lox

/-- A word, or a list between parentheses. -/
inductive Shape where
  | word (w : String)
  | list (items : List Shape)

def endsWord (c : Char) : Bool := [' ', '(', ')', '\n'].contains c

/-- A word is not empty and does not end before its end. -/
def isPlainWord (w : String) : Bool := !w.toList.isEmpty && w.toList.all (!endsWord ·)

namespace Shape

mutual

def text : Shape → String
  | .word w => w
  | .list items => parenthesized (texts items)
termination_by structural x => x

def texts : List Shape → List String
  | [] => []
  | x :: xs => x.text :: texts xs
termination_by structural xs => xs

end

mutual

def Plain : Shape → Prop
  | .word w => isPlainWord w = true
  | .list items => PlainAll items
termination_by structural x => x

def PlainAll : List Shape → Prop
  | [] => True
  | x :: xs => x.Plain ∧ PlainAll xs
termination_by structural xs => xs

end

theorem texts_eq_map (xs : List Shape) : texts xs = xs.map text := by
  induction xs with
  | nil => rfl
  | cons x xs ih => rw [texts, ih, List.map_cons]

/-! ### Texts as characters -/

/-- The items after the first, each after a blank, and the closing parenthesis. -/
def tail : List Shape → List Char
  | [] => [')']
  | x :: xs => ' ' :: x.text.toList ++ tail xs

theorem toList_nil : (list []).text.toList = '(' :: tail [] := rfl

theorem toList_cons (x : Shape) (xs : List Shape) :
    (list (x :: xs)).text.toList = '(' :: x.text.toList ++ tail xs := by
  have rest (w : String) :
      (" ".intercalate (w :: texts xs)).toList ++ [')'] = w.toList ++ tail xs := by
    induction xs generalizing w with
    | nil => simp [texts, tail]
    | cons y ys ih =>
      have blank : " ".toList = [' '] := rfl
      rw [texts, String.intercalate_cons_cons, String.toList_append, String.toList_append, blank,
        List.append_assoc, ih, tail]
      simp
  have opening : "(".toList = ['('] := rfl
  have closing : ")".toList = [')'] := rfl
  rw [text, parenthesized, texts, String.toList_append, String.toList_append, opening, closing,
    List.append_assoc, rest]
  rfl

/-! ### Unique reading -/

def Ends (cs : List Char) : Prop := ∀ c rest, cs = c :: rest → endsWord c = true

theorem ends_tail (xs : List Shape) (cs : List Char) : Ends (tail xs ++ cs) := by
  cases xs <;> rintro _ _ ⟨⟩ <;> rfl

/-- A plain word is what stands before the first character that ends words. -/
theorem takeWhile_word {w : String} (plain : isPlainWord w = true) {cs : List Char}
    (ends : Ends cs) : (w.toList ++ cs).takeWhile (!endsWord ·) = w.toList := by
  have all := (Bool.and_eq_true_iff.mp plain).2
  rw [List.takeWhile_append_of_pos (List.all_eq_true.mp all)]
  cases cs with
  | nil => rw [List.takeWhile_nil, List.append_nil]
  | cons c rest =>
    rw [List.takeWhile_cons_of_neg (by rw [ends c rest rfl]; nofun), List.append_nil]

theorem word_ne_paren {w : String} (plain : isPlainWord w = true) {c : Char} {cs rest : List Char}
    (paren : endsWord c = true) : w.toList ++ cs ≠ c :: rest := by
  intro same
  obtain ⟨filled, all⟩ := Bool.and_eq_true_iff.mp plain
  cases here : w.toList with
  | nil =>
    rw [here] at filled
    cases filled
  | cons d ds =>
    rw [here] at same all
    obtain ⟨rfl, -⟩ := List.cons.inj same
    have := List.all_eq_true.mp all d List.mem_cons_self
    rw [paren] at this
    cases this

theorem toList_list (xs : List Shape) : ∃ rest, (list xs).text.toList = '(' :: rest := by
  cases xs with
  | nil => exact ⟨_, toList_nil⟩
  | cons x xs => exact ⟨_, toList_cons x xs⟩

theorem text_ne_closing {x : Shape} (plain : x.Plain) {cs rest : List Char} :
    x.text.toList ++ cs ≠ ')' :: rest := by
  cases x with
  | word w => exact word_ne_paren plain rfl
  | list xs =>
    obtain ⟨inner, opens⟩ := toList_list xs
    rw [opens]
    rintro ⟨⟩

theorem toList_cons_append (x : Shape) (xs : List Shape) (cs : List Char) :
    (list (x :: xs)).text.toList ++ cs = '(' :: (x.text.toList ++ (tail xs ++ cs)) := by
  rw [toList_cons, List.cons_append, List.cons_append, List.append_assoc]

theorem tail_cons_append (x : Shape) (xs : List Shape) (cs : List Char) :
    tail (x :: xs) ++ cs = ' ' :: (x.text.toList ++ (tail xs ++ cs)) := by
  rw [tail, List.cons_append, List.cons_append, List.append_assoc]

mutual

/-- What follows a shape begins where the shape ends, and there is no other way to read it. -/
theorem text_unique : ∀ (x y : Shape) {cs ds : List Char}, x.Plain → y.Plain → Ends cs → Ends ds →
    x.text.toList ++ cs = y.text.toList ++ ds → x = y ∧ cs = ds
  | .word w, .word w', cs, ds, plain, plain', ends, ends', same => by
    have words := congrArg (List.takeWhile (!endsWord ·)) same
    rw [show (word w).text = w from rfl, show (word w').text = w' from rfl,
      takeWhile_word plain ends, takeWhile_word plain' ends'] at words
    obtain rfl := String.toList_inj.mp words
    exact ⟨rfl, List.append_cancel_left same⟩
  | .word w, .list ys, cs, ds, plain, _, _, _, same => by
    obtain ⟨rest, opens⟩ := toList_list ys
    rw [opens] at same
    exact absurd same (word_ne_paren plain rfl)
  | .list xs, .word w, cs, ds, _, plain, _, _, same => by
    obtain ⟨rest, opens⟩ := toList_list xs
    rw [opens] at same
    exact absurd same.symm (word_ne_paren plain rfl)
  | .list [], .list [], cs, ds, _, _, _, _, same => ⟨rfl, List.append_cancel_left same⟩
  | .list (x :: xs), .list [], cs, ds, plain, _, _, _, same => by
    rw [toList_cons_append] at same
    exact absurd (List.cons.inj same).2 (text_ne_closing plain.1)
  | .list [], .list (y :: ys), cs, ds, _, plain, _, _, same => by
    rw [toList_cons_append] at same
    exact absurd (List.cons.inj same).2.symm (text_ne_closing plain.1)
  | .list (x :: xs), .list (y :: ys), cs, ds, plain, plain', _, _, same => by
    rw [toList_cons_append, toList_cons_append] at same
    obtain ⟨rfl, others⟩ := text_unique x y plain.1 plain'.1 (ends_tail _ _) (ends_tail _ _)
      (List.cons.inj same).2
    obtain ⟨rfl, after⟩ := tail_unique xs ys plain.2 plain'.2 others
    exact ⟨rfl, after⟩

theorem tail_unique : ∀ (xs ys : List Shape) {cs ds : List Char}, PlainAll xs → PlainAll ys →
    tail xs ++ cs = tail ys ++ ds → xs = ys ∧ cs = ds
  | [], [], cs, ds, _, _, same => ⟨rfl, (List.cons.inj same).2⟩
  | [], y :: ys, cs, ds, _, _, same => by
    cases (List.cons.inj same).1
  | x :: xs, [], cs, ds, _, _, same => by
    cases (List.cons.inj same).1
  | x :: xs, y :: ys, cs, ds, plain, plain', same => by
    rw [tail_cons_append, tail_cons_append] at same
    obtain ⟨rfl, others⟩ := text_unique x y plain.1 plain'.1 (ends_tail _ _) (ends_tail _ _)
      (List.cons.inj same).2
    obtain ⟨rfl, after⟩ := tail_unique xs ys plain.2 plain'.2 others
    exact ⟨rfl, after⟩

end

theorem toList_lines (w : String) (ws : List String) :
    (CommandLine.lines (w :: ws)).toList = w.toList ++ '\n' :: (CommandLine.lines ws).toList := by
  rw [CommandLine.lines, List.map_cons, String.join_cons, String.toList_append,
    String.toList_append, List.append_assoc]
  rfl

/-- Lines with shapes determine the shapes. -/
theorem lines_inj : ∀ {xs ys : List Shape}, PlainAll xs → PlainAll ys →
    CommandLine.lines (texts xs) = CommandLine.lines (texts ys) → xs = ys
  | [], [], _, _, _ => rfl
  | [], y :: ys, _, _, same => by
    have same := congrArg String.toList same
    rw [texts, texts, toList_lines] at same
    exact absurd same.symm (List.append_ne_nil_of_right_ne_nil _ (List.cons_ne_nil _ _))
  | x :: xs, [], _, _, same => by
    have same := congrArg String.toList same
    rw [texts, texts, toList_lines] at same
    exact absurd same (List.append_ne_nil_of_right_ne_nil _ (List.cons_ne_nil _ _))
  | x :: xs, y :: ys, plain, plain', same => by
    have same := congrArg String.toList same
    rw [texts, texts, toList_lines, toList_lines] at same
    have ends (cs : List Char) : Ends ('\n' :: cs) := by rintro _ _ ⟨⟩; rfl
    obtain ⟨rfl, others⟩ := text_unique x y plain.1 plain'.1 (ends _) (ends _) same
    have rest := String.toList_inj.mp (List.cons.inj others).2
    rw [lines_inj plain.2 plain'.2 rest]

end Shape

end Lox
