import BlockHost.Proofs.CheckedTexts
import Mathlib.Data.List.Forall2
import Mathlib.Data.List.DropRight

/-!
# Texts that are cut

A bounded text takes of everything that is pushed onto it the longest prefix for which there is room at
that moment (`Text.LongestWithin`). So what it holds is not a prefix of all that was pushed: where a wide
character is cut off, a narrow one that comes later can still get in. `Text.Kept` says piece by piece what
is kept, and `BoundedText.kept_performAll` that this is what a text holds after any calls, and when it is
cut.

Lines are pushed in two pieces, and the line feed may be left out as well. But it takes one byte, so it is
left out only when no room is left at all, and then nothing comes behind the line any more. This is why
two lines never become one (`BoundedText.lined_performAll`).
-/

namespace BlockHost

/-- A call on a text. -/
inductive TextCall where
  | push (added : String)
  | line (added : String)
  | write (added : String)
  | clear
deriving DecidableEq, Repr

namespace TextCall

/-- The texts that a call pushes, one by one. -/
def pieces : TextCall → List String
  | .push added => [added]
  | .line added => [added, "\n"]
  | .write added => [added]
  | .clear => []

/-- The calls since the text was last cleared. -/
def sinceClear (calls : List TextCall) : List TextCall :=
  calls.rtakeWhile (· ≠ .clear)

/-- The texts that have been pushed since the text was last cleared. -/
def pushed (calls : List TextCall) : List String :=
  (sinceClear calls).flatMap pieces

theorem sinceClear_concat (calls : List TextCall) {call : TextCall} (h : call ≠ .clear) :
    sinceClear (calls ++ [call]) = sinceClear calls ++ [call] := by
  simp [sinceClear, h]

@[simp] theorem sinceClear_clear (calls : List TextCall) : sinceClear (calls ++ [.clear]) = [] := by
  simp [sinceClear]

theorem pushed_concat (calls : List TextCall) {call : TextCall} (h : call ≠ .clear) :
    pushed (calls ++ [call]) = pushed calls ++ call.pieces := by
  simp [pushed, sinceClear_concat calls h]

@[simp] theorem pushed_clear (calls : List TextCall) : pushed (calls ++ [.clear]) = [] := by
  simp [pushed]

end TextCall

namespace Text

/-! ## The pieces that are kept -/

/-- Of a text the longest prefix that takes at most `room` bytes. -/
structure LongestWithin (room : Nat) (text part : String) : Prop where
  begins : part.toList <+: text.toList
  fits : byteSize part.toList ≤ room
  longest : ∀ other : String, other.toList <+: text.toList → byteSize other.toList ≤ room →
    other.toList <+: part.toList

/-- Of texts that are pushed one after the other, the part that is kept of each: the longest prefix for
which there is room behind the parts kept before. -/
inductive Kept (capacity : Nat) : List String → List String → Prop where
  | nil : Kept capacity [] []
  | concat {texts parts : List String} {text part : String} (before : Kept capacity texts parts)
      (last : LongestWithin (capacity - byteSize (String.join parts).toList) text part) :
      Kept capacity (texts ++ [text]) (parts ++ [part])

theorem prefix_fitting {room : Nat} {cs other : List Char} (h : other <+: cs)
    (hroom : byteSize other ≤ room) : other <+: fitting room cs := by
  induction cs generalizing room other with
  | nil => exact h
  | cons c cs ih =>
      cases other with
      | nil => exact List.nil_prefix
      | cons d other =>
          obtain ⟨rfl, hrest⟩ := List.cons_prefix_cons.1 h
          rw [byteSize_cons] at hroom
          rw [fitting, if_pos (by omega)]
          exact List.cons_prefix_cons.2 ⟨rfl, ih hrest (by omega)⟩

theorem longestWithin_fitting (room : Nat) (text : String) :
    LongestWithin room text (String.ofList (fitting room text.toList)) := by
  constructor
  · rw [String.toList_ofList]
    exact Checked.fitting_begins room text.toList
  · rw [String.toList_ofList]
    exact byteSize_fitting_le room text.toList
  · intro other hother hroom
    rw [String.toList_ofList]
    exact prefix_fitting hother hroom

theorem join_concat (parts : List String) (part : String) :
    String.join (parts ++ [part]) = String.join parts ++ part := by
  simp [String.join]

/-! ## Lines -/

/-- A line that no line feed and no carriage return interrupts. -/
def IsLine (line : String) : Prop :=
  '\n' ∉ line.toList ∧ '\r' ∉ line.toList

theorem endedLine_reverse {cs : List Char} (h : '\r' ∉ cs) : endedLine cs.reverse = cs := by
  unfold endedLine
  split
  · next before heq =>
      refine absurd (List.mem_reverse.1 ?_) h
      rw [heq]
      exact List.mem_cons_self
  · exact List.reverse_reverse cs

theorem linesAfter_append {cs : List Char} (h : '\n' ∉ cs) (collected rest : List Char) :
    linesAfter collected (cs ++ rest) = linesAfter (cs.reverse ++ collected) rest := by
  induction cs generalizing collected with
  | nil => rfl
  | cons c cs ih =>
      obtain ⟨hc, hcs⟩ := List.ne_and_not_mem_of_not_mem_cons h
      rw [List.cons_append, linesAfter, if_neg (Ne.symm hc), ih hcs]
      simp

/-- Lines that are all ended, and the start of one more, are the lines of the text. -/
theorem linesAfter_flatMap {fronts : List (List Char)} {last : List Char}
    (h : ∀ front ∈ fronts, '\n' ∉ front ∧ '\r' ∉ front) (hlast : '\n' ∉ last) :
    linesAfter [] (fronts.flatMap (· ++ ['\n']) ++ last) =
      fronts ++ if last.isEmpty then [] else [last] := by
  induction fronts with
  | nil =>
      have hend := linesAfter_append hlast [] []
      rw [List.append_nil, List.append_nil] at hend
      simp [hend, linesAfter]
  | cons front fronts ih =>
      obtain ⟨hfeed, hreturn⟩ := h front List.mem_cons_self
      have hrest := ih fun front hfront => h front (List.mem_cons_of_mem _ hfront)
      rw [List.flatMap_cons, List.append_assoc, List.append_assoc, linesAfter_append hfeed]
      rw [List.singleton_append, linesAfter, if_pos rfl, hrest, List.append_nil, endedLine_reverse hreturn]
      rfl

end Text

namespace BoundedText

variable {capacity : Nat}

/-- What a call does to a text. -/
def perform (t : BoundedText capacity) : TextCall → BoundedText capacity
  | .push added => t.push added
  | .line added => t.pushLine added
  | .write added => t.push added
  | .clear => .empty

/-- What calls do to a text, one after the other. -/
def performAll (t : BoundedText capacity) (calls : List TextCall) : BoundedText capacity :=
  calls.foldl perform t

theorem performAll_concat (t : BoundedText capacity) (calls : List TextCall) (call : TextCall) :
    t.performAll (calls ++ [call]) = (t.performAll calls).perform call := by
  simp [performAll]

/-- A text holds the parts that are kept of the texts pushed, and it is cut when something is missing. -/
structure Holds (t : BoundedText capacity) (texts parts : List String) : Prop where
  kept : Text.Kept capacity texts parts
  chars_eq : t.chars = (String.join parts).toList
  cut_iff : t.cut = true ↔ parts ≠ texts

theorem size_eq_chars (t : BoundedText capacity) : t.size = Text.byteSize t.chars := by
  rw [chars, Text.byteSize_reverse, t.size_eq]

theorem Holds.push {t : BoundedText capacity} {texts parts : List String} (h : t.Holds texts parts)
    (added : String) : ∃ part, part.toList = Text.fitting (capacity - t.size) added.toList ∧
      (t.push added).Holds (texts ++ [added]) (parts ++ [part]) := by
  obtain ⟨hkept, hchars, hcut⟩ := h
  refine ⟨String.ofList (Text.fitting (capacity - t.size) added.toList), String.toList_ofList, ?_⟩
  constructor
  · refine hkept.concat ?_
    rw [← hchars, ← size_eq_chars]
    exact Text.longestWithin_fitting _ _
  · rw [chars_push, Text.join_concat, String.toList_append, String.toList_ofList, hchars]
  · have hshort : (Text.fitting (capacity - t.size) added.toList).length < added.toList.length ↔
        String.ofList (Text.fitting (capacity - t.size) added.toList) ≠ added := by
      have hbegins := Checked.fitting_begins (capacity - t.size) added.toList
      constructor
      · intro hlt heq
        rw [← String.toList_inj, String.toList_ofList] at heq
        rw [heq] at hlt
        exact Nat.lt_irrefl _ hlt
      · intro hne
        refine Nat.lt_of_le_of_ne hbegins.length_le fun hlen => hne ?_
        rw [hbegins.eq_of_length hlen, String.ofList_toList]
    simp only [BoundedText.push, Bool.or_eq_true, decide_eq_true_eq, hcut, hshort, ne_eq,
      List.append_singleton_inj]
    tauto

theorem Holds.perform {t : BoundedText capacity} {texts parts : List String} (h : t.Holds texts parts)
    {call : TextCall} (hcall : call ≠ .clear) :
    ∃ more, (t.perform call).Holds (texts ++ call.pieces) (parts ++ more) := by
  cases call with
  | push added =>
      obtain ⟨part, -, hpart⟩ := h.push added
      exact ⟨[part], hpart⟩
  | write added =>
      obtain ⟨part, -, hpart⟩ := h.push added
      exact ⟨[part], hpart⟩
  | line added =>
      obtain ⟨part, -, hpart⟩ := h.push added
      obtain ⟨feed, -, hfeed⟩ := hpart.push "\n"
      refine ⟨[part, feed], ?_⟩
      rw [List.append_assoc, List.append_assoc] at hfeed
      exact hfeed
  | clear => exact absurd rfl hcall

variable (capacity) in
theorem holds_performAll (calls : List TextCall) :
    ∃ parts, ((empty : BoundedText capacity).performAll calls).Holds (TextCall.pushed calls) parts := by
  have hempty : (empty : BoundedText capacity).Holds [] [] := by
    refine ⟨.nil, rfl, iff_of_false Bool.false_ne_true fun h => h rfl⟩
  induction calls using List.reverseRecOn with
  | nil => exact ⟨[], hempty⟩
  | append_singleton calls call ih =>
      obtain ⟨parts, hparts⟩ := ih
      rw [performAll_concat]
      by_cases hcall : call = .clear
      · subst hcall
        rw [TextCall.pushed_clear]
        exact ⟨[], hempty⟩
      · obtain ⟨more, hmore⟩ := hparts.perform hcall
        rw [TextCall.pushed_concat calls hcall]
        exact ⟨parts ++ more, hmore⟩

variable (capacity) in
/-- What was there before a text was cleared makes no difference. -/
theorem performAll_sinceClear (calls : List TextCall) :
    (empty : BoundedText capacity).performAll calls = empty.performAll (TextCall.sinceClear calls) := by
  induction calls using List.reverseRecOn with
  | nil => rfl
  | append_singleton calls call ih =>
      by_cases hcall : call = .clear
      · subst hcall
        rw [performAll_concat, TextCall.sinceClear_clear]
        rfl
      · rw [TextCall.sinceClear_concat calls hcall, performAll_concat, performAll_concat, ih]

/-! ## Lines -/

theorem lines_of_chars {t : BoundedText capacity} {fronts : List String} {last : String}
    (h : ∀ front ∈ fronts, Text.IsLine front) (hlast : Text.IsLine last)
    (hchars : t.chars = (fronts.map String.toList).flatMap (· ++ ['\n']) ++ last.toList) :
    t.lines = (fronts ++ [last]).filter fun line => !line.isEmpty := by
  have hfronts : ∀ front ∈ fronts.map String.toList, '\n' ∉ front ∧ '\r' ∉ front := by
    intro front hfront
    obtain ⟨line, hline, rfl⟩ := List.mem_map.1 hfront
    exact h line hline
  rw [lines, text, Text.lines, String.toList_ofList, hchars, Text.linesAfter_flatMap hfronts hlast.1]
  have hback : (fronts.map String.toList).map String.ofList = fronts := by
    simp [Function.comp_def]
  rw [List.map_append, hback, List.filter_append, List.filter_append]
  congr 1
  by_cases hempty : last = ""
  · simp [hempty]
  · have hne : last.toList ≠ [] := fun heq => hempty (String.toList_eq_nil_iff.1 heq)
    simp [hne]

/-- A text onto which lines were put: it holds the start of each, and all are ended unless no room is
left. -/
structure Lined (t : BoundedText capacity) (fronts : List String) : Prop where
  areLines : ∀ front ∈ fronts, Text.IsLine front
  lines_eq : t.lines = fronts.filter fun line => !line.isEmpty
  ended : t.size < capacity → t.chars = (fronts.map String.toList).flatMap (· ++ ['\n'])

theorem isLine_of_prefix {front line : String} (hline : Text.IsLine line)
    (hfront : front.toList <+: line.toList) : Text.IsLine front :=
  ⟨fun h => hline.1 (hfront.subset h), fun h => hline.2 (hfront.subset h)⟩

theorem push_full {t : BoundedText capacity} (hfull : t.size = capacity) (added : String) :
    (t.push added).chars = t.chars ∧ (t.push added).size = capacity := by
  have hnone : Text.fitting (capacity - t.size) added.toList = [] := by
    rw [hfull, Nat.sub_self]
    cases added.toList with
    | nil => rfl
    | cons c cs =>
        have hpos := c.utf8Size_pos
        rw [Text.fitting, if_neg (by omega)]
  have hchars := t.chars_push added
  rw [hnone, List.append_nil] at hchars
  refine ⟨hchars, ?_⟩
  rw [size_eq_chars, hchars, ← size_eq_chars, hfull]

/-- A line feed is left out only when there is no room at all. -/
theorem push_feed (t : BoundedText capacity) :
    (t.size < capacity ∧ (t.push "\n").chars = t.chars ++ ['\n']) ∨
      (t.size = capacity ∧ (t.push "\n").chars = t.chars ∧ (t.push "\n").size = capacity) := by
  have hfeed : ('\n' : Char).utf8Size = 1 := by decide
  rcases Nat.lt_or_ge t.size capacity with hroom | hfull
  · refine .inl ⟨hroom, ?_⟩
    rw [chars_push]
    show t.chars ++ Text.fitting (capacity - t.size) ['\n'] = t.chars ++ ['\n']
    rw [Text.fitting, if_pos (by omega), Text.fitting]
  · have hsize : t.size = capacity := Nat.le_antisymm t.size_le hfull
    exact .inr ⟨hsize, push_full hsize "\n"⟩

theorem lined_pushLine {t : BoundedText capacity} {fronts : List String} {line : String}
    (h : t.Lined fronts) (hline : Text.IsLine line) :
    ∃ front, front.toList <+: line.toList ∧ (t.pushLine line).Lined (fronts ++ [front]) := by
  obtain ⟨hfronts, hlines, hended⟩ := h
  have hblank : Text.IsLine "" := by constructor <;> decide
  rcases Nat.lt_or_ge t.size capacity with hroom | hfull
  · have hchars := t.chars_push line
    rw [hended hroom] at hchars
    have hbegins := Checked.fitting_begins (capacity - t.size) line.toList
    generalize hfront : String.ofList (Text.fitting (capacity - t.size) line.toList) = front
    rw [← String.toList_inj, String.toList_ofList] at hfront
    rw [hfront] at hchars hbegins
    have hIsLine := isLine_of_prefix hline hbegins
    have hall : ∀ other ∈ fronts ++ [front], Text.IsLine other := by
      intro other hother
      rcases List.mem_append.1 hother with hother | hother
      · exact hfronts other hother
      · rw [List.mem_singleton.1 hother]
        exact hIsLine
    refine ⟨front, hbegins, hall, ?_, ?_⟩
    · rcases push_feed (t.push line) with ⟨-, hfeed⟩ | ⟨-, hfeed, -⟩
      · rw [hchars] at hfeed
        have hlast := lines_of_chars (t := t.pushLine line) hall hblank (by simp [pushLine, hfeed])
        rw [hlast, List.filter_append _ [""]]
        simp
      · rw [hchars] at hfeed
        exact lines_of_chars (t := t.pushLine line) hfronts hIsLine hfeed
    · intro hmore
      rcases push_feed (t.push line) with ⟨-, hfeed⟩ | ⟨-, -, hsize⟩
      · rw [pushLine, hfeed, hchars]
        simp
      · exact absurd hmore (Nat.not_lt.2 (Nat.le_of_eq hsize.symm))
  · -- Nothing can be added any more, so the line and its line feed leave no trace.
    have hsize : t.size = capacity := Nat.le_antisymm t.size_le hfull
    obtain ⟨hchars, hstays⟩ := push_full hsize line
    obtain ⟨hchars', hstays'⟩ := push_full hstays "\n"
    refine ⟨"", List.nil_prefix, ?_, ?_, fun hmore => ?_⟩
    · intro other hother
      rcases List.mem_append.1 hother with hother | hother
      · exact hfronts other hother
      · rw [List.mem_singleton.1 hother]
        exact hblank
    · have hsame : (t.pushLine line).lines = t.lines := by
        rw [lines, lines, text, text, pushLine, hchars', hchars]
      rw [hsame, hlines, List.filter_append]
      simp
    · exact absurd hmore (Nat.not_lt.2 (Nat.le_of_eq hstays'.symm))

variable (capacity) in
/-- Lines put on an empty text are given back one by one, each as far as it was kept. -/
theorem lined_performAll {added : List String} (h : ∀ line ∈ added, Text.IsLine line) :
    ∃ fronts, List.Forall₂ (fun front line => front.toList <+: line.toList) fronts added ∧
      ((empty : BoundedText capacity).performAll (added.map .line)).Lined fronts := by
  induction added using List.reverseRecOn with
  | nil => exact ⟨[], .nil, fun _ h => absurd h List.not_mem_nil, rfl, fun _ => rfl⟩
  | append_singleton added line ih =>
      obtain ⟨fronts, hbegin, hlined⟩ := ih fun other hother => h other (List.mem_append_left _ hother)
      obtain ⟨front, hfront, hstep⟩ := lined_pushLine hlined (h line (by simp))
      refine ⟨fronts ++ [front], List.rel_append hbegin (.cons hfront .nil), ?_⟩
      rw [List.map_append, List.map_cons, List.map_nil, performAll_concat]
      exact hstep

/-- Nothing being cut, the lines put on an empty text are given back. -/
theorem lines_performAll {added : List String} (h : ∀ line ∈ added, Text.IsLine line)
    (hcut : ((empty : BoundedText capacity).performAll (added.map .line)).cut = false) :
    ((empty : BoundedText capacity).performAll (added.map .line)).lines =
      added.filter fun line => !line.isEmpty := by
  obtain ⟨parts, -, hchars, hiff⟩ := holds_performAll capacity (added.map .line)
  have hparts : parts = TextCall.pushed (added.map .line) := by
    refine Classical.not_not.1 fun hne => ?_
    rw [hcut] at hiff
    exact Bool.false_ne_true (hiff.2 hne)
  have hsince : TextCall.sinceClear (added.map .line) = added.map .line := by
    refine List.rtakeWhile_eq_self_iff.2 fun call hcall => ?_
    obtain ⟨line, -, rfl⟩ := List.mem_map.1 hcall
    rfl
  have hjoin : (String.join parts).toList = (added.map String.toList).flatMap (· ++ ['\n']) := by
    rw [hparts, TextCall.pushed, hsince, String.toList_join]
    simp [List.flatMap_map, List.flatMap_assoc, TextCall.pieces]
  have hblank : Text.IsLine "" := by constructor <;> decide
  rw [lines_of_chars h hblank (by rw [hchars, hjoin]; simp), List.filter_append]
  simp

end BoundedText

end BlockHost
