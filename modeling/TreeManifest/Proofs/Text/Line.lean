import Mathlib.Data.List.Basic
import Mathlib.Data.List.Induction
import Mathlib.Data.List.TakeWhile
import TreeManifest.Text.Lines

/-!
# Lines and their margins

What is cut off at the ends of a text is told by a class of characters, and none of the class is left
there (`exists_margins`). Trimming takes the blanks and nothing else (`isTrimmed_trim`,
`IsTrimmed.trim_eq`). The lines of a text hold no character that ends a line (`mem_splitLines`), and
such lines come back from a text in which each is ended (`splitLines_append`).
-/

namespace TreeManifest.Text

structure IsTrimmed (cs : List Char) : Prop where
  head : ∀ c ∈ cs.head?, isBlank c = false
  last : ∀ c ∈ cs.getLast?, isBlank c = false

instance (cs : List Char) : Decidable (IsTrimmed cs) :=
  decidable_of_iff (cs.head?.all (!isBlank ·) = true ∧ cs.getLast?.all (!isBlank ·) = true)
    ⟨fun h => ⟨by simpa [Option.all_eq_true] using h.1, by simpa [Option.all_eq_true] using h.2⟩,
      fun h => ⟨by simpa [Option.all_eq_true] using h.head,
        by simpa [Option.all_eq_true] using h.last⟩⟩

variable {c : Char} {cs line rest : List Char}

-- ---------------------------------------------------------------------------
-- Trimming
-- ---------------------------------------------------------------------------

theorem dropRightWhile_suffix (p : Char → Bool) (cs : List Char) : dropRightWhile p cs <+: cs := by
  have hsuffix := List.dropWhile_suffix (l := cs.reverse) p
  rw [← List.reverse_prefix, List.reverse_reverse] at hsuffix
  exact hsuffix

theorem trim_infix (cs : List Char) : trim cs <:+: cs :=
  (dropRightWhile_suffix _ _).isInfix.trans (List.dropWhile_suffix _).isInfix

section
variable {p : Char → Bool} {front middle back : List Char}

/-- What is cut off has the class, and what is left has it at neither end. -/
theorem exists_margins (p : Char → Bool) (cs : List Char) :
    ∃ front back, cs = front ++ trimWhile p cs ++ back ∧ (∀ c ∈ front, p c = true) ∧
      (∀ c ∈ back, p c = true) ∧ (∀ c ∈ (trimWhile p cs).head?, p c = false) ∧
      ∀ c ∈ (trimWhile p cs).getLast?, p c = false := by
  have hright : ∀ ds : List Char,
      ds = dropRightWhile p ds ++ (ds.reverse.takeWhile p).reverse := by
    intro ds
    rw [dropRightWhile, ← List.reverse_append, List.takeWhile_append_dropWhile,
      List.reverse_reverse]
  refine ⟨cs.takeWhile p, ((cs.dropWhile p).reverse.takeWhile p).reverse, ?_,
    fun c hc => List.mem_takeWhile_imp hc,
    fun c hc => List.mem_takeWhile_imp (List.mem_reverse.mp hc), fun c hc => ?_, fun c hc => ?_⟩
  · rw [trimWhile, List.append_assoc, ← hright, List.takeWhile_append_dropWhile]
  · -- The first character that is left is the first one that was not dropped in front.
    have hdropped := List.head?_dropWhile_not p cs
    have hhead : (cs.dropWhile p).head? = some c := by
      rw [hright (cs.dropWhile p), List.head?_append, ← trimWhile, hc, Option.some_or]
    rw [hhead] at hdropped
    exact hdropped
  · have hdropped := List.head?_dropWhile_not p (cs.dropWhile p).reverse
    rw [trimWhile, dropRightWhile, List.getLast?_reverse] at hc
    rw [hc] at hdropped
    exact hdropped

theorem trimWhile_append (hfront : ∀ c ∈ front, p c = true) (hback : ∀ c ∈ back, p c = true) :
    trimWhile p (front ++ middle ++ back) = trimWhile p middle := by
  rw [trimWhile, List.append_assoc, List.dropWhile_append_of_pos hfront, List.dropWhile_append]
  split
  · next hempty =>
    have hnone : back.dropWhile p = [] := List.dropWhile_eq_nil_iff.mpr hback
    rw [hnone, trimWhile, List.isEmpty_iff.mp hempty]
  · exact dropRightWhile_append_of_all (List.all_eq_true.mpr hback)

theorem trimWhile_eq_self (hhead : ∀ c ∈ cs.head?, p c = false)
    (hlast : ∀ c ∈ cs.getLast?, p c = false) : trimWhile p cs = cs := by
  obtain ⟨front, back, hparts, hfront, hback, -⟩ := exists_margins p cs
  have hnofront : front = [] := by
    cases front with
    | nil => rfl
    | cons c front =>
      rw [hparts] at hhead
      exact absurd (hfront c List.mem_cons_self) (by simp [hhead c rfl])
  have hnoback : back = [] := by
    cases back using List.reverseRecOn with
    | nil => rfl
    | append_singleton back c =>
      rw [hparts] at hlast
      exact absurd (hback c (by simp)) (by simp [hlast c (by simp)])
  rw [hnofront, hnoback, List.nil_append, List.append_nil] at hparts
  exact hparts.symm

end

theorem isTrimmed_trim (cs : List Char) : IsTrimmed (trim cs) := by
  obtain ⟨_, _, -, -, -, hhead, hlast⟩ := exists_margins isBlank cs
  exact ⟨hhead, hlast⟩

theorem IsTrimmed.trim_eq (h : IsTrimmed cs) : trim cs = cs := trimWhile_eq_self h.head h.last

theorem trim_cons (h : isBlank c = true) : trim (c :: cs) = trim cs := by
  rw [trim, trim, trimWhile, trimWhile, List.dropWhile_cons_of_pos h]

theorem IsTrimmed.append {ds : List Char} (hc : IsTrimmed cs) (hd : IsTrimmed ds) (hcs : cs ≠ [])
    (hds : ds ≠ []) (middle : List Char) : IsTrimmed (cs ++ middle ++ ds) where
  head := by
    rw [List.append_assoc, List.head?_append_of_ne_nil _ hcs]
    exact hc.head
  last := by
    rw [List.getLast?_append_of_ne_nil _ hds]
    exact hd.last

theorem intercalate_ne_nil {sep : List Char} {lines : List (List Char)} (hlines : lines ≠ [])
    (h : ∀ line ∈ lines, line ≠ []) : List.intercalate sep lines ≠ [] := by
  cases lines with
  | nil => exact absurd rfl hlines
  | cons line more =>
    have hline := h line List.mem_cons_self
    cases more with
    | nil => rwa [List.intercalate_singleton]
    | cons next more => simp [List.intercalate_cons_cons, hline]

theorem IsTrimmed.intercalate {lines : List (List Char)} (sep : List Char)
    (h : ∀ line ∈ lines, IsTrimmed line ∧ line ≠ []) : IsTrimmed (List.intercalate sep lines) := by
  induction lines with
  | nil => exact ⟨by simp, by simp⟩
  | cons line lines ih =>
    obtain ⟨⟨htrimmed, hline⟩, hlines⟩ := List.forall_mem_cons.mp h
    cases lines with
    | nil => rwa [List.intercalate_singleton]
    | cons next lines =>
      rw [List.intercalate_cons_cons]
      refine htrimmed.append (ih hlines) hline (intercalate_ne_nil (by simp) ?_) sep
      exact fun line hm => (hlines line hm).2

-- ---------------------------------------------------------------------------
-- Lines
-- ---------------------------------------------------------------------------

theorem mem_splitOn (cs : List Char) : ∀ line ∈ cs.splitOn '\n', ∀ c ∈ line, c ≠ '\n' ∧ c ∈ cs := by
  induction cs with
  | nil => simp
  | cons first cs ih =>
    rw [List.splitOn_cons_eq_if_modifyHead]
    have hcs : ∀ line ∈ cs.splitOn '\n', ∀ c ∈ line, c ≠ '\n' ∧ c ∈ first :: cs :=
      fun line hline c hc => (ih line hline c hc).imp_right (List.mem_cons_of_mem _)
    split
    · exact List.forall_mem_cons.mpr ⟨List.forall_mem_nil _, hcs⟩
    · next hfirst =>
      rcases hs : cs.splitOn '\n' with _ | ⟨line, lines⟩
      · exact absurd hs (List.splitOn_ne_nil _ _)
      · rw [hs] at hcs
        obtain ⟨hline, hlines⟩ := List.forall_mem_cons.mp hcs
        exact List.forall_mem_cons.mpr
          ⟨List.forall_mem_cons.mpr ⟨⟨by simpa using hfirst, List.mem_cons_self⟩, hline⟩, hlines⟩

theorem mem_intercalate {sep : List Char} {lines : List (List Char)}
    (h : c ∈ List.intercalate sep lines) : c ∈ sep ∨ ∃ line ∈ lines, c ∈ line := by
  induction lines with
  | nil => cases h
  | cons line lines ih =>
    cases lines with
    | nil => exact .inr ⟨line, List.mem_cons_self, by rwa [List.intercalate_singleton] at h⟩
    | cons next lines =>
      simp only [List.intercalate_cons_cons, List.mem_append] at h
      rcases h with (h | h) | h
      · exact .inr ⟨line, List.mem_cons_self, h⟩
      · exact .inl h
      · exact (ih h).imp_right fun ⟨other, hm, hc⟩ => ⟨other, List.mem_cons_of_mem _ hm, hc⟩

theorem mem_splitLines (cs : List Char) :
    ∀ line ∈ splitLines cs, ∀ c ∈ line, isLineEnd c = false := by
  fun_induction splitLines cs with
  | case1 => exact List.forall_mem_nil _
  | case2 rest ih | case3 c rest hcrlf hend ih => exact List.forall_mem_cons.mpr ⟨by simp, ih⟩
  | case4 c rest hcrlf hend hnil ih => simpa using hend
  | case5 c rest hcrlf hend line lines hlines ih =>
    rw [hlines] at ih
    obtain ⟨hline, hmore⟩ := List.forall_mem_cons.mp ih
    exact List.forall_mem_cons.mpr
      ⟨List.forall_mem_cons.mpr ⟨eq_false_of_ne_true hend, hline⟩, hmore⟩

theorem splitLines_append (h : ∀ c ∈ line, isLineEnd c = false) (rest : List Char) :
    splitLines (line ++ '\n' :: rest) = line :: splitLines rest := by
  induction line with
  | nil => rfl
  | cons c line ih =>
    obtain ⟨hc, hline⟩ := List.forall_mem_cons.mp h
    have hreturn : c ≠ '\r' := by
      rintro rfl
      cases hc
    rw [List.cons_append, splitLines]
    · simp only [hc, ih hline, Bool.false_eq_true, if_false]
    · exact fun _ heq => absurd heq hreturn

-- ---------------------------------------------------------------------------
-- Line ends
-- ---------------------------------------------------------------------------

/-- Line ends are unified part by part, unless a carriage return and its line feed are parted. -/
theorem unifyLineEnds_append (h : cs.getLast? = some '\r' → rest.head? ≠ some '\n') :
    unifyLineEnds (cs ++ rest) = unifyLineEnds cs ++ unifyLineEnds rest := by
  fun_induction unifyLineEnds cs with
  | case1 => rfl
  | case2 cs ih =>
    simp only [List.cons_append, unifyLineEnds]
    rw [ih fun hlast => h (by simp [List.getLast?_cons, hlast])]
  | case3 cs hfeed ih =>
    have hcs : cs.getLast? = some '\r' → rest.head? ≠ some '\n' :=
      fun hlast => h (by simp [List.getLast?_cons, hlast])
    rw [List.cons_append, List.cons_append, ← ih hcs]
    cases cs with
    | nil =>
      have hrest := h rfl
      rw [List.nil_append, unifyLineEnds]
      rintro others rfl
      exact hrest rfl
    | cons c cs =>
      rw [List.cons_append, unifyLineEnds]
      rintro others ⟨⟩
      exact hfeed cs rfl
  | case4 c cs hfeed hreturn ih =>
    have hcs : cs.getLast? = some '\r' → rest.head? ≠ some '\n' :=
      fun hlast => h (by simp [List.getLast?_cons, hlast])
    rw [List.cons_append, List.cons_append, ← ih hcs, unifyLineEnds]
    · exact fun others heq => absurd heq hreturn
    · exact hreturn

/-- A text without carriage returns that does not begin with a line feed keeps the line ends around
it apart. -/
theorem unifyLineEnds_around {middle : List Char} (hmiddle : middle ≠ [])
    (hfeed : middle.head? ≠ some '\n') (hreturn : '\r' ∉ middle) (before after : List Char) :
    unifyLineEnds (before ++ middle ++ after) =
      unifyLineEnds before ++ middle ++ unifyLineEnds after := by
  have hlast : (before ++ middle).getLast? ≠ some '\r' := by
    rw [List.getLast?_append_of_ne_nil _ hmiddle]
    exact fun h => hreturn (List.mem_of_getLast? h)
  rw [unifyLineEnds_append fun h => absurd h hlast, unifyLineEnds_append fun _ => hfeed,
    unifyLineEnds_eq_self hreturn]

theorem prefix_of_prefix_unifyLineEnds {mark : List Char} (hmark : '\n' ∉ mark)
    (h : mark <+: unifyLineEnds cs) : mark <+: cs := by
  fun_induction unifyLineEnds cs generalizing mark with
  | case1 => exact h
  | case2 cs ih | case3 cs hfeed ih =>
    rcases List.prefix_cons_iff.mp h with rfl | ⟨others, rfl, -⟩
    · exact List.nil_prefix
    · exact absurd List.mem_cons_self hmark
  | case4 c cs hfeed hreturn ih =>
    rcases List.prefix_cons_iff.mp h with rfl | ⟨others, rfl, hothers⟩
    · exact List.nil_prefix
    · exact List.cons_prefix_cons.mpr ⟨rfl, ih (fun hm => hmark (List.mem_cons_of_mem _ hm)) hothers⟩

theorem infix_of_infix_unifyLineEnds {mark : List Char} (hmark : '\n' ∉ mark)
    (h : mark <:+: unifyLineEnds cs) : mark <:+: cs := by
  have hprefix : ∀ rest : List Char, mark <+: unifyLineEnds rest → mark <:+: rest :=
    fun rest h => (prefix_of_prefix_unifyLineEnds hmark h).isInfix
  fun_induction unifyLineEnds cs with
  | case1 => exact h
  | case2 cs ih =>
    rcases List.infix_cons_iff.mp h with h | h
    · exact hprefix ('\r' :: '\n' :: cs) (by rwa [unifyLineEnds])
    · exact List.infix_cons (List.infix_cons (ih h))
  | case3 cs hfeed ih =>
    rcases List.infix_cons_iff.mp h with h | h
    · exact hprefix ('\r' :: cs) (by rwa [unifyLineEnds]; exact hfeed)
    · exact List.infix_cons (ih h)
  | case4 c cs hfeed hreturn ih =>
    rcases List.infix_cons_iff.mp h with h | h
    · exact hprefix (c :: cs) (by rwa [unifyLineEnds] <;> assumption)
    · exact List.infix_cons (ih h)

theorem mem_unifyLineEnds (hreturn : c ≠ '\r') (hfeed : c ≠ '\n') :
    c ∈ unifyLineEnds cs ↔ c ∈ cs := by
  fun_induction unifyLineEnds cs <;> simp_all

end TreeManifest.Text
