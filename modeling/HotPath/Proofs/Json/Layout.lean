/-
  HotPath.Proofs.Json.Layout

  Documents, written and read back. The text of a written document splits into the
  tokens that spell it (`reads_pretty`), however deep it is indented, and the parser
  makes these tokens the document again (`parses_spell`); so a written document is
  what its text says (`parse?_pretty`).

  A bare word ends only with the character after it. Reading is therefore stated for
  text with something behind it that ends words, which is a line break or a comma
  inside a document, and costs nothing at the end of the text.
-/
import HotPath.Proofs.Json.Lexeme
import Mathlib.Data.List.Forall2

namespace HotPath.Json

/-- Documents whose numbers are integers and whose strings and keys are escaped
text. -/
inductive Written : Json → Prop where
  | null : Written .null
  | bool (b : Bool) : Written (.bool b)
  | num (n : Int) : Written (ofInt n)
  | str (s : String) : Written (ofText s)
  | arr {items : List Json} : (∀ j ∈ items, Written j) → Written (.arr items)
  | obj {members : List (String × Json)} : (∀ m ∈ members, ∃ s, m.1 = Quoted.encode s) →
      (∀ m ∈ members, Written m.2) → Written (.obj members)

mutual

/-- The tokens that spell a document. -/
def spell : Json → List Token
  | .null => [.null]
  | .bool b => [.bool b]
  | .num lexeme => [.num lexeme]
  | .str raw => [.str raw]
  | .arr items => .beginArr :: ([Token.comma].intercalate (spellItems items) ++ [.endArr])
  | .obj members => .beginObj :: ([Token.comma].intercalate (spellMembers members) ++ [.endObj])

/-- The tokens that spell each item of an array. -/
def spellItems : List Json → List (List Token)
  | [] => []
  | j :: js => spell j :: spellItems js

/-- The tokens that spell each member of an object. -/
def spellMembers : List (String × Json) → List (List Token)
  | [] => []
  | (k, v) :: ms => (.str k :: .colon :: spell v) :: spellMembers ms

end

-- ============================================================================
-- From text to tokens
-- ============================================================================

namespace Lexer

theorem pushAll_append (s : Lexer) (cs ds : List Char) :
    s.pushAll (cs ++ ds) = (s.pushAll cs).bind (fun t => t.pushAll ds) := by
  induction cs generalizing s with
  | nil => rfl
  | cons c cs ih =>
    simp only [List.cons_append, pushAll]
    cases s.push c with
    | none => rfl
    | some t => exact ih t

/-- A text is over wherever a blank may follow. -/
theorem finish_eq_push_blank (s : Lexer) : s.finish = (s.push ' ').bind finish := by
  obtain ⟨mode, tokens⟩ := s
  cases mode with
  | idle => rfl
  | bare done =>
    show (word? done).map _ = ((word? done).map _).bind finish
    cases word? done with
    | none => rfl
    | some t => rfl
  | quoted done => rfl
  | escaped done => rfl
  | hex more done => rfl

/-- Text that adds tokens when it is read between words. -/
def Reads (text : List Char) (ts : List Token) : Prop :=
  ∀ (before : List Token) (c : Char) (rest : List Char), endsWord c = true →
    pushAll ⟨.idle, before⟩ (text ++ c :: rest) =
      pushAll ⟨.idle, ts.reverse ++ before⟩ (c :: rest)

theorem Reads.tokens? {text : String} {ts : List Token} (h : Reads text.toList ts) :
    tokens? text = some ts := by
  have hblank : (start.pushAll text.toList).bind finish =
      (start.pushAll (text.toList ++ [' '])).bind finish := by
    rw [pushAll_append]
    cases start.pushAll text.toList with
    | none => rfl
    | some s =>
      show s.finish = (s.pushAll [' ']).bind finish
      rw [finish_eq_push_blank]
      simp only [pushAll]
      cases s.push ' ' with
      | none => rfl
      | some t => rfl
  have hread := h [] ' ' [] rfl
  unfold Json.tokens?
  rw [hblank]
  show (pushAll ⟨.idle, []⟩ (text.toList ++ [' '])).bind finish = some ts
  rw [hread]
  show some (ts.reverse ++ []).reverse = some ts
  rw [List.append_nil, List.reverse_reverse]

-- ============================================================================
-- Words and strings
-- ============================================================================

theorem pushIdle_of_word {c : Char} (hc : endsWord c = false) (before : List Token) :
    pushIdle before c = ⟨.bare [c], before⟩ := by
  unfold endsWord at hc
  simp only [Bool.or_eq_false_iff, beq_eq_false_iff_ne, Option.isSome_eq_false_iff,
    Option.isNone_iff_eq_none] at hc
  obtain ⟨⟨hblank, hquote⟩, hpunct⟩ := hc
  unfold pushIdle
  rw [hblank, if_neg Bool.false_ne_true, if_neg hquote, hpunct]

theorem pushAll_bare {cs : List Char} (hcs : ∀ c ∈ cs, endsWord c = false) (done : List Char)
    (before : List Token) (rest : List Char) :
    pushAll ⟨.bare done, before⟩ (cs ++ rest) =
      pushAll ⟨.bare (cs.reverse ++ done), before⟩ rest := by
  induction cs generalizing done with
  | nil => rfl
  | cons c cs ih =>
    have hc := hcs c List.mem_cons_self
    have hpush : push ⟨.bare done, before⟩ c = some ⟨.bare (c :: done), before⟩ := by
      simp only [push, hc, Bool.false_eq_true, if_false]
    rw [List.cons_append, pushAll, hpush]
    dsimp only
    rw [ih (fun d hd => hcs d (List.mem_cons_of_mem _ hd)), List.reverse_cons, List.append_assoc]
    rfl

theorem reads_word {w : List Char} {t : Token} (hne : w ≠ []) (hw : w.any endsWord = false)
    (ht : word? w.reverse = some t) : Reads w [t] := by
  intro before d rest hd
  have hw : ∀ c ∈ w, endsWord c = false :=
    fun c hc => Bool.eq_false_iff.mpr (List.any_eq_false.mp hw c hc)
  cases w with
  | nil => exact absurd rfl hne
  | cons c cs =>
    have hfirst : push ⟨.idle, before⟩ c = some ⟨.bare [c], before⟩ :=
      congrArg some (pushIdle_of_word (hw c List.mem_cons_self) before)
    have hlast : push ⟨.bare (cs.reverse ++ [c]), before⟩ d = push ⟨.idle, t :: before⟩ d := by
      rw [List.reverse_cons] at ht
      simp only [push, hd, ht, if_true, Option.map_some]
    rw [List.cons_append, pushAll, hfirst]
    dsimp only
    rw [pushAll_bare (fun e he => hw e (List.mem_cons_of_mem _ he)), pushAll, hlast]
    rfl

theorem endsWord_of_isDigit {c : Char} (h : c.isDigit = true) : endsWord c = false := by
  have hall : ∀ k < 58, 48 ≤ k → endsWord (Char.ofNat k) = false := by decide
  obtain ⟨hlo, hhi⟩ := Char.isDigit_iff_toNat.mp h
  rw [← Char.ofNat_toNat c]
  exact hall c.toNat (Nat.lt_succ_of_le hhi) hlo

theorem reads_ofInt (n : Int) : Reads (Number.ofInt n).toList [.num (Number.ofInt n)] := by
  have hnum := Number.isNumber_ofInt n
  apply reads_word
  · intro h
    rw [h] at hnum
    cases hnum
  · refine List.any_eq_false.mpr (fun c hc => Bool.eq_false_iff.mp ?_)
    rw [Number.toList_ofInt] at hc
    split at hc
    · exact endsWord_of_isDigit (Number.isDigit_toDigits _ c hc)
    · rcases List.mem_cons.mp hc with rfl | hc
      · rfl
      · exact endsWord_of_isDigit (Number.isDigit_toDigits _ c hc)
  · unfold word?
    rw [List.reverse_reverse]
    dsimp only
    -- no word of letters is a number
    have hnull : (Number.ofInt n).toList ≠ ['n', 'u', 'l', 'l'] := by
      intro h
      rw [h] at hnum
      cases hnum
    have htrue : (Number.ofInt n).toList ≠ ['t', 'r', 'u', 'e'] := by
      intro h
      rw [h] at hnum
      cases hnum
    have hfalse : (Number.ofInt n).toList ≠ ['f', 'a', 'l', 's', 'e'] := by
      intro h
      rw [h] at hnum
      cases hnum
    rw [if_neg hnull, if_neg htrue, if_neg hfalse, if_pos hnum, String.ofList_toList]

/-- An escaped character stays inside its string. -/
theorem pushAll_escape (c : Char) (done : List Char) (before : List Token) (rest : List Char) :
    pushAll ⟨.quoted done, before⟩ (Quoted.escape c ++ rest) =
      pushAll ⟨.quoted ((Quoted.escape c).reverse ++ done), before⟩ rest := by
  rcases Quoted.escape_cases c with ⟨e, he, hu, -, hescape⟩ | ⟨hlow, he⟩ | ⟨hlow, hquote, hback, he⟩
  · rw [he]
    have hpush : push ⟨.escaped ('\\' :: done), before⟩ e =
        some ⟨.quoted (e :: '\\' :: done), before⟩ := by
      simp only [push, hu, hescape, if_false, if_true]
    show pushAll ⟨.escaped ('\\' :: done), before⟩ (e :: rest) = _
    rw [pushAll, hpush]
    rfl
  · rw [he]
    have hhex : ∀ k < 16, isHex (Quoted.hexDigit k) = true := by decide
    have hpush : ∀ k more ds, k < 16 →
        push ⟨.hex (more + 1) ds, before⟩ (Quoted.hexDigit k) =
          some ⟨.hex more (Quoted.hexDigit k :: ds), before⟩ := by
      intro k more ds hk
      simp only [push, hhex k hk, if_true]
    have hpush' : ∀ k ds, k < 16 → push ⟨.hex 0 ds, before⟩ (Quoted.hexDigit k) =
        some ⟨.quoted (Quoted.hexDigit k :: ds), before⟩ := by
      intro k ds hk
      simp only [push, hhex k hk, if_true]
    show pushAll ⟨.hex 1 ('0' :: '0' :: 'u' :: '\\' :: done), before⟩
      (Quoted.hexDigit (c.toNat / 16) :: Quoted.hexDigit (c.toNat % 16) :: rest) = _
    rw [pushAll, hpush _ _ _ (by omega)]
    dsimp only
    rw [pushAll, hpush' _ _ (by omega)]
    rfl
  · rw [he]
    have hpush : push ⟨.quoted done, before⟩ c = some ⟨.quoted (c :: done), before⟩ := by
      simp only [push, hquote, hback, hlow, if_false]
    show pushAll ⟨.quoted done, before⟩ (c :: rest) = _
    rw [pushAll, hpush]
    rfl

theorem pushAll_encode (s : String) (before : List Token) (rest : List Char) :
    pushAll ⟨.idle, before⟩ ('"' :: ((Quoted.encode s).toList ++ '"' :: rest)) =
      pushAll ⟨.idle, .str (Quoted.encode s) :: before⟩ rest := by
  have hall : ∀ (cs done : List Char),
      pushAll ⟨.quoted done, before⟩ (cs.flatMap Quoted.escape ++ '"' :: rest) =
        pushAll ⟨.quoted ((cs.flatMap Quoted.escape).reverse ++ done), before⟩ ('"' :: rest) := by
    intro cs
    induction cs with
    | nil =>
      intro done
      rfl
    | cons c cs ih =>
      intro done
      rw [List.flatMap_cons, List.append_assoc, pushAll_escape, ih, List.reverse_append,
        List.append_assoc]
  have hopen : ∀ cs, pushAll ⟨.idle, before⟩ ('"' :: cs) = pushAll ⟨.quoted [], before⟩ cs :=
    fun _ => rfl
  have hclose : ∀ done, push ⟨.quoted done, before⟩ '"' =
      some ⟨.idle, .str (String.ofList done.reverse) :: before⟩ := fun _ => rfl
  unfold Quoted.encode
  rw [String.toList_ofList, hopen, hall, List.append_nil, pushAll, hclose, List.reverse_reverse]

theorem reads_ofText (level : Nat) (s : String) :
    Reads ((ofText s).pretty level).toList [.str (Quoted.encode s)] := by
  intro before c rest _
  have htext : (ofText s).pretty level = "\"" ++ Quoted.encode s ++ "\"" := by
    unfold ofText pretty
    rfl
  have hquote : "\"".toList = ['"'] := rfl
  rw [htext, String.toList_append, String.toList_append, hquote, List.append_assoc,
    List.append_assoc, List.singleton_append, List.singleton_append, pushAll_encode]
  rfl

-- ============================================================================
-- Lines
-- ============================================================================

theorem toList_margin (level : Nat) : (margin level).toList = List.replicate (2 * level) ' ' := by
  have h : ∀ n, (Nat.repeat (fun s => s.push ' ') n "").toList = List.replicate n ' ' := by
    intro n
    induction n with
    | zero => rfl
    | succ n ih =>
      rw [Nat.repeat, String.toList_push, ih, List.replicate_succ']
  unfold margin
  rw [String.pushn_eq_repeat_push, h]

theorem pushAll_margin (level : Nat) (before : List Token) (rest : List Char) :
    pushAll ⟨.idle, before⟩ ((margin level).toList ++ rest) = pushAll ⟨.idle, before⟩ rest := by
  rw [toList_margin]
  induction 2 * level with
  | zero => rfl
  | succ n ih => exact ih

/-- Lines with commas between them. -/
theorem reads_join {lines : List String} {tss : List (List Token)}
    (h : List.Forall₂ (fun line ts => Reads line.toList ts) lines tss) (hne : lines ≠ []) :
    Reads (String.join (lines.intersperse ",\n")).toList ([Token.comma].intercalate tss) := by
  induction h with
  | nil => exact absurd rfl hne
  | @cons line ts lines tss hline hlines ih =>
    cases hlines with
    | nil =>
      rw [List.intersperse_singleton, List.intercalate_singleton, String.join_cons,
        String.join_nil, String.append_empty]
      exact hline
    | @cons line' ts' lines tss _ _ =>
      have hrest := ih (List.cons_ne_nil _ _)
      intro before c rest hc
      have hsep : ",\n".toList = [',', '\n'] := rfl
      have hcomma : ∀ (ts : List Token) (cs : List Char),
          pushAll ⟨.idle, ts⟩ (',' :: '\n' :: cs) = pushAll ⟨.idle, .comma :: ts⟩ cs :=
        fun _ _ => rfl
      rw [List.intersperse_cons_cons, List.intercalate_cons_cons, String.join_cons,
        String.join_cons, String.toList_append, String.toList_append, hsep, List.append_assoc,
        List.append_assoc, List.cons_append, hline before ',' _ rfl, List.cons_append,
        List.nil_append, hcomma, hrest _ c rest hc]
      simp

/-- Lines inside brackets. -/
theorem reads_block (level : Nat) {opening closing : String} {b e : Token}
    (hopen : ∀ before rest, pushAll ⟨.idle, before⟩ (opening.toList ++ rest) =
      pushAll ⟨.idle, b :: before⟩ rest)
    (hclose : ∀ before rest, pushAll ⟨.idle, before⟩ (closing.toList ++ rest) =
      pushAll ⟨.idle, e :: before⟩ rest)
    {lines : List String} {tss : List (List Token)}
    (h : List.Forall₂ (fun line ts => Reads line.toList ts) lines tss) (hne : lines ≠ []) :
    Reads (block level opening closing lines).toList
      (b :: ([Token.comma].intercalate tss ++ [e])) := by
  intro before c rest _
  have hline : "\n".toList = ['\n'] := rfl
  simp only [block, String.toList_append, List.append_assoc, hline]
  have hblank : ∀ (ts : List Token) (cs : List Char),
      pushAll ⟨.idle, ts⟩ ('\n' :: cs) = pushAll ⟨.idle, ts⟩ cs := fun _ _ => rfl
  rw [hopen, List.singleton_append, hblank, List.singleton_append,
    reads_join h hne (b :: before) '\n' _ rfl, hblank, pushAll_margin, hclose]
  simp

end Lexer

open Lexer (Reads)

theorem reads_items {items : List Json} (level : Nat)
    (h : ∀ j ∈ items, ∀ level, Reads (j.pretty level).toList j.spell) :
    List.Forall₂ (fun line ts => Reads line.toList ts) (prettyItems level items)
      (spellItems items) := by
  induction items with
  | nil => exact .nil
  | cons j js ih =>
    have hline : Reads (margin level ++ j.pretty level).toList j.spell := by
      intro before c rest hc
      rw [String.toList_append, List.append_assoc, Lexer.pushAll_margin]
      exact h j List.mem_cons_self level before c rest hc
    rw [prettyItems, spellItems]
    exact .cons hline (ih (fun j' hj => h j' (List.mem_cons_of_mem _ hj)))

theorem reads_members {members : List (String × Json)} (level : Nat)
    (hkeys : ∀ m ∈ members, ∃ s, m.1 = Quoted.encode s)
    (h : ∀ m ∈ members, ∀ level, Reads (m.2.pretty level).toList m.2.spell) :
    List.Forall₂ (fun line ts => Reads line.toList ts) (prettyMembers level members)
      (spellMembers members) := by
  induction members with
  | nil => exact .nil
  | cons m ms ih =>
    obtain ⟨k, v⟩ := m
    obtain ⟨s, hs⟩ := hkeys (k, v) List.mem_cons_self
    have hline : Reads (margin level ++ "\"" ++ k ++ "\": " ++ v.pretty level).toList
        (.str k :: .colon :: v.spell) := by
      intro before c rest hc
      have hquote : "\"".toList = ['"'] := rfl
      have hcolon : "\": ".toList = ['"', ':', ' '] := rfl
      have hk : k = Quoted.encode s := hs
      simp only [String.toList_append, List.append_assoc, hquote, hcolon]
      rw [Lexer.pushAll_margin, List.singleton_append, List.cons_append, hk, Lexer.pushAll_encode]
      show Lexer.pushAll ⟨.idle, .colon :: .str (Quoted.encode s) :: before⟩
        ((v.pretty level).toList ++ c :: rest) = _
      rw [h (k, v) List.mem_cons_self level _ c rest hc]
      simp
    rw [prettyMembers, spellMembers]
    exact .cons hline (ih (fun m hm => hkeys m (List.mem_cons_of_mem _ hm))
      (fun m hm => h m (List.mem_cons_of_mem _ hm)))

/-- The text of a written document splits into the tokens that spell it. -/
theorem reads_pretty {j : Json} (h : j.Written) (level : Nat) :
    Reads (j.pretty level).toList j.spell := by
  induction h generalizing level with
  | null =>
    rw [pretty, spell]
    exact Lexer.reads_word (by decide) rfl rfl
  | bool b =>
    cases b with
    | true =>
      rw [pretty, spell]
      exact Lexer.reads_word (by decide) rfl rfl
    | false =>
      rw [pretty, spell]
      exact Lexer.reads_word (by decide) rfl rfl
  | num n =>
    unfold ofInt
    rw [pretty, spell]
    exact Lexer.reads_ofInt n
  | str s =>
    have hspell : (ofText s).spell = [.str (Quoted.encode s)] := by
      unfold ofText spell
      rfl
    rw [hspell]
    exact Lexer.reads_ofText level s
  | @arr items _ ih =>
    cases items with
    | nil => 
      rw [pretty, spell]
      exact fun _ _ _ _ => rfl
    | cons j js =>
      rw [pretty, spell]
      · exact Lexer.reads_block level (fun _ _ => rfl) (fun _ _ => rfl)
          (reads_items (level + 1) ih) (by rw [prettyItems]; exact List.cons_ne_nil _ _)
      · exact List.cons_ne_nil _ _
  | @obj members hkeys _ ih =>
    cases members with
    | nil =>
      rw [pretty, spell]
      exact fun _ _ _ _ => rfl
    | cons m ms =>
      rw [pretty, spell]
      · exact Lexer.reads_block level (fun _ _ => rfl) (fun _ _ => rfl)
          (reads_members (level + 1) hkeys ih) (by rw [prettyMembers]; exact List.cons_ne_nil _ _)
      · exact List.cons_ne_nil _ _

-- ============================================================================
-- From tokens to documents
-- ============================================================================

namespace Parser

/-- Tokens that complete a document where a value has to begin. -/
def Parses (ts : List Token) (j : Json) : Prop :=
  ∀ (stack : List Layer) (rest : List Token),
    pushAll (.needValue stack) (ts ++ rest) = pushAll (.complete stack j) rest

/-- The first item of an array is read like the others: no document begins with a
closing bracket. -/
theorem pushAll_firstItem (stack : List Layer) (j : Json) (rest : List Token) :
    pushAll (.firstItem stack) (j.spell ++ rest) =
      pushAll (.needValue (.arr [] :: stack)) (j.spell ++ rest) := by
  cases j with
  | null | bool | num | str | arr | obj =>
    rw [spell]
    rfl

theorem pushAll_items {j : Json} {js : List Json} (h : ∀ i ∈ j :: js, Parses i.spell i)
    (stack : List Layer) (done : List Json) (rest : List Token) :
    pushAll (.needValue (.arr done :: stack))
        ([Token.comma].intercalate (spellItems (j :: js)) ++ .endArr :: rest) =
      pushAll (.complete stack (.arr (done.reverse ++ j :: js))) rest := by
  induction js generalizing j done with
  | nil =>
    rw [spellItems, spellItems, List.intercalate_singleton, h j List.mem_cons_self]
    show pushAll (.complete stack (.arr (j :: done).reverse)) rest = _
    rw [List.reverse_cons]
  | cons j' js ih =>
    have hrest := ih (fun i hi => h i (List.mem_cons_of_mem _ hi)) (j :: done)
    rw [spellItems, spellItems, List.intercalate_cons_cons, List.append_assoc, List.append_assoc,
      h j List.mem_cons_self]
    show pushAll (.needValue (.arr (j :: done) :: stack)) (_ ++ .endArr :: rest) = _
    rw [spellItems] at hrest
    rw [hrest, List.reverse_cons, List.append_assoc]
    rfl

theorem pushAll_members {m : String × Json} {ms : List (String × Json)}
    (h : ∀ n ∈ m :: ms, Parses n.2.spell n.2) (stack : List Layer) (done : List (String × Json))
    (rest : List Token) :
    pushAll (.needKey stack done)
        ([Token.comma].intercalate (spellMembers (m :: ms)) ++ .endObj :: rest) =
      pushAll (.complete stack (.obj (done.reverse ++ m :: ms))) rest := by
  obtain ⟨k, v⟩ := m
  have hv : Parses v.spell v := h (k, v) List.mem_cons_self
  induction ms generalizing k v done with
  | nil =>
    rw [spellMembers, spellMembers, List.intercalate_singleton]
    show pushAll (.needValue (.obj done k :: stack)) (v.spell ++ .endObj :: rest) = _
    rw [hv]
    show pushAll (.complete stack (.obj ((k, v) :: done).reverse)) rest = _
    rw [List.reverse_cons]
  | cons m' ms ih =>
    obtain ⟨k', v'⟩ := m'
    have hrest := ih ((k, v) :: done) k' v' (fun n hn => h n (List.mem_cons_of_mem _ hn))
      (h (k', v') (List.mem_cons_of_mem _ List.mem_cons_self))
    rw [spellMembers] at hrest
    rw [spellMembers, spellMembers, List.intercalate_cons_cons, List.append_assoc,
      List.append_assoc]
    show pushAll (.needValue (.obj done k :: stack)) (v.spell ++ ([.comma] ++ _)) = _
    rw [hv]
    show pushAll (.needKey stack ((k, v) :: done)) (_ ++ .endObj :: rest) = _
    rw [hrest, List.reverse_cons, List.append_assoc]
    rfl

/-- Separated parts begin with the first part. -/
theorem exists_intercalate_cons (ts : List Token) (tss : List (List Token)) :
    ∃ more, [Token.comma].intercalate (ts :: tss) = ts ++ more := by
  cases tss with
  | nil => exact ⟨[], by rw [List.intercalate_singleton, List.append_nil]⟩
  | cons ts' tss => exact ⟨_, by rw [List.intercalate_cons_cons, List.append_assoc]⟩

/-- The tokens of a written document are parsed to it. -/
theorem parses_spell {j : Json} (h : j.Written) : Parses j.spell j := by
  induction h with
  | null | bool =>
    intro stack rest
    rw [spell]
    rfl
  | num n =>
    intro stack rest
    unfold ofInt
    rw [spell]
    rfl
  | str s =>
    intro stack rest
    unfold ofText
    rw [spell]
    rfl
  | @arr items _ ih =>
    intro stack rest
    cases items with
    | nil =>
      rw [spell, spellItems]
      rfl
    | cons j js =>
      have hitems := pushAll_items ih stack [] rest
      obtain ⟨more, hmore⟩ := exists_intercalate_cons j.spell (spellItems js)
      rw [spellItems, hmore, List.append_assoc] at hitems
      rw [spell, spellItems, hmore, List.cons_append, List.append_assoc, List.append_assoc]
      show pushAll (.firstItem stack) (j.spell ++ (more ++ .endArr :: rest)) = _
      rw [pushAll_firstItem, hitems]
      rfl
  | @obj members _ _ ih =>
    intro stack rest
    cases members with
    | nil =>
      rw [spell, spellMembers]
      rfl
    | cons m ms =>
      have hmembers := pushAll_members ih stack [] rest
      obtain ⟨k, v⟩ := m
      obtain ⟨more, hmore⟩ :=
        exists_intercalate_cons (.str k :: .colon :: v.spell) (spellMembers ms)
      rw [spellMembers, hmore, List.append_assoc] at hmembers
      rw [spell, spellMembers, hmore, List.cons_append, List.append_assoc, List.append_assoc]
      -- the first key is read like the others
      show pushAll (.needKey stack [])
        ((.str k :: .colon :: v.spell) ++ (more ++ .endObj :: rest)) = _
      rw [hmembers]
      rfl

end Parser

/-- A written document is what its text says. -/
theorem parse?_pretty {j : Json} (h : j.Written) (level : Nat) :
    parse? (j.pretty level) = some j := by
  have hparse := Parser.parses_spell h [] []
  rw [List.append_nil] at hparse
  unfold parse?
  rw [(reads_pretty h level).tokens?]
  show ((Parser.needValue []).pushAll j.spell).bind Parser.finish = some j
  rw [hparse]
  rfl

end HotPath.Json
