/-
  The SHELL's command lines (compositor/folkshell.rs): `parse` and `flatten_pipeline`.

  A line is split at `|>` and `~>` outside double quotes, each part is parsed, the parts are joined to a tree from the
  left, and the tree is flattened again before it runs.  The scanners work on bytes, but every byte they look at is an
  ASCII character, so that a line is a list of characters here.

  `pipeline` says what a line means: its parts, each with the operator written before it, by recursion on the line.
    * `splitLoop_eq`        — the index loop finds these parts, except an empty one at the end;
    * `buildPipeline_steps` — tree and flattening keep them in order;
    * `parse_ok_iff`        — a line is refused for a command without a word (`HasWord`);
    * `parse_faithful_iff`  — so a line that is not refused is parsed faithfully unless it ends with an operator.
-/
import Mathlib

namespace Folkering.Shell

open List

/-- Text. -/
abbrev Str := List Char

/-- The white space of `str::trim`. -/
def isWhitespace (c : Char) : Bool :=
  let n := c.toNat
  (9 ≤ n && n ≤ 13) || n == 32 || n == 0x85 || n == 0xA0 || n == 0x1680 || (0x2000 ≤ n && n ≤ 0x200A) ||
    n == 0x2028 || n == 0x2029 || n == 0x202F || n == 0x205F || n == 0x3000

/-- `str::trim`. -/
def trim (s : Str) : Str := (s.dropWhile isWhitespace).rdropWhile isWhitespace

/-! ## Commands -/

/-- A command with its arguments. -/
structure Command where
  name : Str
  args : List Str
deriving Repr, DecidableEq

/-- How sure a semantic step has to be. -/
inductive Confidence where
  | default
  | high
  | low
deriving Repr, DecidableEq

/-- The tree of a line. -/
inductive AstNode where
  | cmd (c : Command)
  | pipe (left right : AstNode)
  | fuzzyPipe (left : AstNode) (query : Str) (confidence : Confidence)
deriving Repr, DecidableEq

/-- The operators. -/
inductive PipeOp where
  /-- `|>` -/
  | deterministic
  /-- `~>` -/
  | fuzzy
deriving Repr, DecidableEq

/-- A part of a line, with the operator behind it. -/
structure RawSegment where
  text : Str
  op : PipeOp
deriving Repr, DecidableEq

/-- A step that runs. -/
inductive PipelineStep where
  | cmd (c : Command)
  | semantic (query : Str) (confidence : Confidence)
deriving Repr, DecidableEq

/-! ## Parsing -/

/-- The variables of the loop of `parse_command`. -/
structure TokenState where
  tokens : List Str
  current : Str
  inQuotes : Bool

/-- One character. -/
def TokenState.next (t : TokenState) (ch : Char) : TokenState :=
  if ch = '"' then { t with inQuotes := !t.inQuotes }
  else if (ch = ' ' ∨ ch = '\t') ∧ t.inQuotes = false then
    if t.current.isEmpty then t else { t with tokens := t.tokens ++ [t.current], current := [] }
  else { t with current := t.current ++ [ch] }

/-- The last word. -/
def TokenState.finish (t : TokenState) : List Str := if t.current.isEmpty then t.tokens else t.tokens ++ [t.current]

/-- `parse_command`: `name arg1 "quoted arg" arg3`. -/
def parseCommand (segment : Str) : Except String Command :=
  let trimmed := trim segment
  if trimmed.isEmpty then .error "empty command"
  else match (trimmed.foldl TokenState.next ⟨[], [], false⟩).finish with
    | [] => .error "no command name"
    | name :: args => .ok ⟨name, args⟩

/-- `contains`. -/
def containsStr (text pattern : Str) : Bool := text.tails.any fun t => pattern.isPrefixOf t

/-- `trim_matches('"')`. -/
def trimQuotes (s : Str) : Str := (s.dropWhile (· == '"')).rdropWhile (· == '"')

/-- `parse_semantic_query`: the query, and what the last bracket says about the confidence. -/
def parseSemanticQuery (text : Str) : Str × Confidence :=
  let trimmed := trim text
  if '[' ∈ trimmed then
    let annotation := '[' :: (trimmed.reverse.takeWhile (· != '[')).reverse
    let query := trimQuotes (trim ((trimmed.reverse.dropWhile (· != '[')).drop 1).reverse)
    let confidence :=
      if containsStr annotation ['H', 'i', 'g', 'h'] || containsStr annotation ['h', 'i', 'g', 'h'] then .high
      else if containsStr annotation ['L', 'o', 'w'] || containsStr annotation ['l', 'o', 'w'] then .low
      else .default
    (query, confidence)
  else (trimQuotes trimmed, .default)

/-- The loop of `split_pipeline`, at index `i` of a segment that began at `start`. -/
def splitLoop (input : Str) : Nat → Nat → Nat → Bool → List RawSegment
  | 0, _, _, _ => []
  | fuel + 1, start, i, inQuotes =>
    if i < input.length then
      if input.getD i ' ' = '"' then splitLoop input fuel start (i + 1) (!inQuotes)
      else if inQuotes = false ∧ i + 1 < input.length then
        if input.getD i ' ' = '|' ∧ input.getD (i + 1) ' ' = '>' then
          ⟨(input.drop start).take (i - start), .deterministic⟩ :: splitLoop input fuel (i + 2) (i + 2) inQuotes
        else if input.getD i ' ' = '~' ∧ input.getD (i + 1) ' ' = '>' then
          ⟨(input.drop start).take (i - start), .fuzzy⟩ :: splitLoop input fuel (i + 2) (i + 2) inQuotes
        else splitLoop input fuel start (i + 1) inQuotes
      else splitLoop input fuel start (i + 1) inQuotes
    -- the last segment, if there is one
    else if start < input.length then [⟨input.drop start, .deterministic⟩]
    else []

/-- `split_pipeline`. -/
def splitPipeline (input : Str) : List RawSegment := splitLoop input (input.length + 1) 0 0 false

/-- `parse_segment`. -/
def parseSegment (seg : RawSegment) : Except String AstNode := (parseCommand (trim seg.text)).map .cmd

/-- The loop of `parse`: the operator between two segments is kept with the first of them. -/
def buildPipeline (ast : AstNode) (prevOp : PipeOp) : List RawSegment → Except String AstNode
  | [] => .ok ast
  | seg :: rest =>
    match prevOp with
    | .deterministic =>
      match parseSegment seg with
      | .error e => .error e
      | .ok right => buildPipeline (.pipe ast right) seg.op rest
    | .fuzzy =>
      let r := parseSemanticQuery (trim seg.text)
      buildPipeline (.fuzzyPipe ast r.1 r.2) seg.op rest

/-- `parse`. -/
def parse (input : Str) : Except String AstNode :=
  let trimmed := trim input
  if trimmed.isEmpty then .error "empty input"
  else match splitPipeline trimmed with
    | [] => .error "empty pipeline"
    | seg :: rest =>
      match parseSegment seg with
      | .error e => .error e
      | .ok ast => buildPipeline ast seg.op rest

/-- `flatten_pipeline`. -/
def flattenPipeline : AstNode → List PipelineStep
  | .cmd c => [.cmd c]
  | .pipe left right => flattenPipeline left ++ flattenPipeline right
  | .fuzzyPipe left query confidence => flattenPipeline left ++ [.semantic query confidence]

/-! ## What a line means -/

/-- The operator that starts with two characters, outside quotes. -/
def opAt (quoted : Bool) (c d : Char) : Option PipeOp :=
  if quoted = false ∧ d = '>' then if c = '|' then some .deterministic else if c = '~' then some .fuzzy else none
  else none

/-- One more character in front. -/
def grow (c : Char) (r : Str × List (PipeOp × Str)) : Str × List (PipeOp × Str) := (c :: r.1, r.2)

/-- The text up to the first operator, and every operator with the text behind it. -/
def scan : Bool → Str → Str × List (PipeOp × Str)
  | _, [] => ([], [])
  | _, [c] => ([c], [])
  | quoted, c :: d :: rest =>
    if c = '"' then grow c (scan (!quoted) (d :: rest))
    else match opAt quoted c d with
      | some op => ([], (op, (scan quoted rest).1) :: (scan quoted rest).2)
      | none => grow c (scan quoted (d :: rest))

/-- The pipe operators of a line outside quotes. -/
def operators (line : Str) : List PipeOp := (scan false line).2.map Prod.fst

/-- The parts of a line, each with the operator written before it; the first is a command like one behind `|>`. -/
def pipeline (line : Str) : List (PipeOp × Str) := (.deterministic, (scan false line).1) :: (scan false line).2

theorem length_pipeline (line : Str) : (pipeline line).length = (operators line).length + 1 := by
  rw [pipeline, operators, length_cons, length_map]

/-- The step is what the text says, joined by the operator. -/
def Joined (part : PipeOp × Str) (step : PipelineStep) : Prop :=
  match part.1 with
  | .deterministic => ∃ c, parseCommand (trim part.2) = .ok c ∧ step = .cmd c
  | .fuzzy => step = .semantic (parseSemanticQuery (trim part.2)).1 (parseSemanticQuery (trim part.2)).2

/-! ## Splitting -/

/-- The segments of some parts; an empty one at the end is left out. -/
def assemble (t : Str) : List (PipeOp × Str) → List RawSegment
  | [] => if t = [] then [] else [⟨t, .deterministic⟩]
  | (op, t') :: rest => ⟨t, op⟩ :: assemble t' rest

/-- What the loop sees at an index. -/
theorem getD_of_drop {input rest : Str} {i : Nat} {c : Char} (h : input.drop i = c :: rest) :
    input.getD i ' ' = c ∧ i < input.length ∧ input.drop (i + 1) = rest := by
  have hget : (input.drop i)[0]? = some c := by rw [h]; rfl
  rw [getElem?_drop, Nat.add_zero] at hget
  obtain ⟨hi, _⟩ := List.getElem?_eq_some_iff.mp hget
  refine ⟨?_, hi, ?_⟩
  · rw [getD_eq_getElem?_getD, hget]
    rfl
  · rw [← drop_drop, h]
    rfl

/-- The segment grows by the character at the index. -/
theorem segment_succ {input rest : Str} {start i : Nat} {c : Char} (h : input.drop i = c :: rest) (hstart : start ≤ i) :
    (input.drop start).take (i + 1 - start) = (input.drop start).take (i - start) ++ [c] := by
  have hget : (input.drop start)[i - start]? = some c := by
    rw [getElem?_drop, Nat.add_sub_cancel' hstart]
    have hzero : (input.drop i)[0]? = some c := by rw [h]; rfl
    rwa [getElem?_drop, Nat.add_zero] at hzero
  rw [Nat.sub_add_comm hstart, take_add_one, hget]
  rfl

/-- The index loop finds the parts of the scan. -/
theorem splitLoop_eq (input : Str) (fuel start i : Nat) (quoted : Bool) (hfuel : input.length < fuel + i)
    (hstart : start ≤ i) (hi : i ≤ input.length) :
    splitLoop input fuel start i quoted = assemble ((input.drop start).take (i - start) ++ (scan quoted (input.drop i)).1)
      (scan quoted (input.drop i)).2 := by
  induction fuel generalizing start i quoted with
  | zero => omega
  | succ fuel ih =>
    -- the loop goes on with one more character in the segment
    have hgrow : ∀ {c rest} (q : Bool), input.drop i = c :: rest → splitLoop input fuel start (i + 1) q =
        assemble ((input.drop start).take (i - start) ++ c :: (scan q rest).1) (scan q rest).2 := by
      intro c rest q h
      obtain ⟨_, hlt, hnext⟩ := getD_of_drop h
      rw [ih start (i + 1) q (by omega) (by omega) hlt, hnext, segment_succ h hstart, append_assoc]
      rfl
    rw [splitLoop]
    cases hdrop : input.drop i with
    | nil =>
      have hend := drop_eq_nil_iff.mp hdrop
      rw [if_neg (by omega), scan, append_nil, assemble, take_of_length_le (by rw [length_drop]; omega)]
      simp only [drop_eq_nil_iff]
      split_ifs <;> first | rfl | omega
    | cons c tail =>
      obtain ⟨hc, hlt, hnext⟩ := getD_of_drop hdrop
      rw [if_pos hlt, hc]
      cases tail with
      | nil =>
        have hend := drop_eq_nil_iff.mp hnext
        rw [if_neg (show ¬ (quoted = false ∧ i + 1 < input.length) by omega), hgrow _ hdrop, hgrow _ hdrop]
        simp only [scan, ite_self]
      | cons d rest =>
        obtain ⟨hd, hlt', hnext'⟩ := getD_of_drop hnext
        have hcut : ∀ op, (⟨(input.drop start).take (i - start), op⟩ : RawSegment) ::
            splitLoop input fuel (i + 2) (i + 2) quoted = assemble ((input.drop start).take (i - start) ++ [])
              ((op, (scan quoted rest).1) :: (scan quoted rest).2) := by
          intro op
          rw [ih (i + 2) (i + 2) quoted (by omega) (Nat.le_refl _) hlt', Nat.sub_self, take_zero, nil_append,
            append_nil, hnext']
          rfl
        rw [hd, hgrow _ hdrop, hgrow _ hdrop, hcut, hcut, scan, opAt]
        simp only [hlt', and_true]
        by_cases hquote : c = '"'
        · rw [if_pos hquote, if_pos hquote]
          rfl
        · rw [if_neg hquote, if_neg hquote]
          cases quoted <;> by_cases hgt : d = '>' <;> by_cases hbar : c = '|' <;> by_cases htilde : c = '~' <;>
            simp [hgt, hbar, htilde, grow]

/-- The splitter finds the parts, except an empty one at the end. -/
theorem splitPipeline_eq (input : Str) : splitPipeline input = assemble (scan false input).1 (scan false input).2 :=
  splitLoop_eq input (input.length + 1) 0 0 false (by omega) (Nat.le_refl 0) (Nat.zero_le _)

/-! ## Trees -/

/-- The segments with the operator before each. -/
def before (op : PipeOp) : List RawSegment → List (PipeOp × Str)
  | [] => []
  | seg :: rest => (op, seg.text) :: before seg.op rest

/-- A segment that is parsed as a command. -/
theorem joined_cmd {text : Str} {ast : AstNode} (h : (parseCommand (trim text)).map AstNode.cmd = .ok ast) :
    ∃ c, ast = .cmd c ∧ Joined (.deterministic, text) (.cmd c) := by
  cases hc : parseCommand (trim text) with
  | error e =>
    rw [hc] at h
    cases h
  | ok c =>
    rw [hc] at h
    cases h
    exact ⟨c, rfl, c, hc, rfl⟩

/-- Tree and flattening keep the segments in order, each with the operator before it. -/
theorem buildPipeline_steps {ast ast' : AstNode} {op : PipeOp} {segs : List RawSegment}
    (h : buildPipeline ast op segs = .ok ast') :
    ∃ steps, flattenPipeline ast' = flattenPipeline ast ++ steps ∧ List.Forall₂ Joined (before op segs) steps := by
  induction segs generalizing ast op with
  | nil =>
    cases h
    exact ⟨[], (append_nil _).symm, List.Forall₂.nil⟩
  | cons seg segs ih =>
    cases op with
    | deterministic =>
      simp only [buildPipeline] at h
      cases hseg : parseSegment seg with
      | error e =>
        rw [hseg] at h
        cases h
      | ok right =>
        rw [hseg] at h
        obtain ⟨c, rfl, hc⟩ := joined_cmd hseg
        obtain ⟨steps, hflat, hsteps⟩ := ih h
        refine ⟨.cmd c :: steps, ?_, List.Forall₂.cons hc hsteps⟩
        rw [hflat, flattenPipeline, flattenPipeline, append_assoc]
        rfl
    | fuzzy =>
      obtain ⟨steps, hflat, hsteps⟩ := ih h
      refine ⟨_ :: steps, ?_, List.Forall₂.cons rfl hsteps⟩
      rw [hflat, flattenPipeline, append_assoc]
      rfl

/-- The parsed segments of a trimmed line. -/
theorem parse_steps {input : Str} {ast : AstNode} (h : parse input = .ok ast) :
    List.Forall₂ Joined (before .deterministic (splitPipeline (trim input))) (flattenPipeline ast) := by
  simp only [parse] at h
  split at h
  · cases h
  · cases hsplit : splitPipeline (trim input) with
    | nil =>
      rw [hsplit] at h
      cases h
    | cons seg rest =>
      simp only [hsplit] at h
      cases hseg : parseSegment seg with
      | error e =>
        rw [hseg] at h
        cases h
      | ok first =>
        rw [hseg] at h
        obtain ⟨c, rfl, hc⟩ := joined_cmd hseg
        obtain ⟨steps, hflat, hsteps⟩ := buildPipeline_steps h
        rw [hflat]
        exact List.Forall₂.cons hc hsteps

/-! ## Words -/

/-- A character that a word is made of stands in the text: any but a quote, and but blanks and tabs outside quotes. -/
def wordIn : Bool → Str → Bool
  | _, [] => false
  | quoted, c :: rest =>
    if c = '"' then wordIn (!quoted) rest
    else if (c = ' ' ∨ c = '\t') ∧ quoted = false then wordIn quoted rest
    else true

/-- The text has a word. -/
def HasWord (text : Str) : Prop := wordIn false (trim text) = true

/-- The loop of `parse_command` finds no word in a text without one. -/
theorem finish_eq_nil_iff (s : Str) (t : TokenState) : (s.foldl TokenState.next t).finish = [] ↔
    t.tokens = [] ∧ t.current = [] ∧ wordIn t.inQuotes s = false := by
  induction s generalizing t with
  | nil =>
    unfold TokenState.finish
    by_cases hcurrent : t.current.isEmpty = true
    · simp [wordIn, isEmpty_iff.mp hcurrent]
    · have hne : t.current ≠ [] := fun h => hcurrent (isEmpty_iff.mpr h)
      simp [hne]
  | cons c s ih =>
    rw [foldl_cons, ih, TokenState.next, wordIn]
    by_cases hquote : c = '"'
    · rw [if_pos hquote, if_pos hquote]
    · rw [if_neg hquote, if_neg hquote]
      by_cases hblank : (c = ' ' ∨ c = '\t') ∧ t.inQuotes = false
      · rw [if_pos hblank, if_pos hblank]
        by_cases hcurrent : t.current.isEmpty = true
        · rw [if_pos hcurrent]
        · have hne : t.current ≠ [] := fun h => hcurrent (isEmpty_iff.mpr h)
          simp [hne]
      · simp [hblank]

/-- Trimming a trimmed text changes nothing. -/
theorem trim_trim (s : Str) : trim (trim s) = trim s := by
  have hfront : (trim s).dropWhile isWhitespace = trim s := by
    cases htrim : trim s with
    | nil => rfl
    | cons c rest =>
      obtain ⟨back, hback⟩ := rdropWhile_prefix isWhitespace (l := s.dropWhile isWhitespace)
      rw [show rdropWhile isWhitespace (s.dropWhile isWhitespace) = c :: rest from htrim] at hback
      have hhead : isWhitespace c = false := by
        have hne : s.dropWhile isWhitespace ≠ [] := by
          rw [← hback]
          exact cons_ne_nil _ _
        have := head_dropWhile_not isWhitespace hne
        simp only [← hback] at this
        exact this
      exact dropWhile_cons_of_neg (by rw [hhead]; decide)
  unfold trim at hfront ⊢
  rw [hfront, rdropWhile_idempotent]

/-- `parse_command` needs a word. -/
theorem parseCommand_ok_iff (text : Str) : (∃ c, parseCommand (trim text) = .ok c) ↔ HasWord text := by
  simp only [parseCommand, trim_trim, HasWord]
  by_cases hempty : (trim text).isEmpty = true
  · simp [isEmpty_iff.mp hempty, wordIn]
  · rw [if_neg hempty]
    have hfinish := finish_eq_nil_iff (trim text) ⟨[], [], false⟩
    simp only [true_and] at hfinish
    cases htokens : ((trim text).foldl TokenState.next ⟨[], [], false⟩).finish with
    | nil => simp [hfinish.mp htokens]
    | cons name args =>
      rw [htokens] at hfinish
      simpa using hfinish

/-- A tree is built unless a command has no word. -/
theorem buildPipeline_ok_iff (ast : AstNode) (op : PipeOp) (segs : List RawSegment) :
    (∃ ast', buildPipeline ast op segs = .ok ast') ↔
      ∀ part ∈ before op segs, part.1 = .deterministic → HasWord part.2 := by
  induction segs generalizing ast op with
  | nil => simp [buildPipeline, before]
  | cons seg segs ih =>
    rw [before, forall_mem_cons]
    cases op with
    | deterministic =>
      have hword := parseCommand_ok_iff seg.text
      simp only [buildPipeline, parseSegment, forall_const]
      cases hparse : parseCommand (trim seg.text) with
      | error e => simp [← hword, hparse, Except.map]
      | ok c => simpa [← hword, hparse, Except.map] using ih (.pipe ast (.cmd c)) seg.op
    | fuzzy => simpa [buildPipeline] using ih _ seg.op

/-- Which lines are parsed: those that are not blank and whose commands all have a word. -/
theorem parse_ok_iff (input : Str) : (∃ ast, parse input = .ok ast) ↔ splitPipeline (trim input) ≠ [] ∧ trim input ≠ [] ∧
    ∀ part ∈ before .deterministic (splitPipeline (trim input)), part.1 = .deterministic → HasWord part.2 := by
  simp only [parse]
  by_cases hempty : (trim input).isEmpty = true
  · simp [isEmpty_iff.mp hempty]
  · rw [if_neg hempty]
    have hne : trim input ≠ [] := fun h => hempty (isEmpty_iff.mpr h)
    cases splitPipeline (trim input) with
    | nil => simp
    | cons seg rest =>
      have hword := parseCommand_ok_iff seg.text
      rw [before, forall_mem_cons]
      simp only [parseSegment, forall_const]
      cases hparse : parseCommand (trim seg.text) with
      | error e => simp [← hword, hparse, Except.map]
      | ok c => simpa [← hword, hparse, Except.map, hne] using buildPipeline_ok_iff (.cmd c) seg.op rest

/-! ## White space -/

/-- White space is none of the characters that matter. -/
theorem not_special {c : Char} (h : isWhitespace c = true) : c ≠ '"' ∧ c ≠ '|' ∧ c ≠ '~' ∧ c ≠ '>' := by
  refine ⟨?_, ?_, ?_, ?_⟩ <;> (rintro rfl; revert h; decide)

theorem trim_eq_nil_iff (t : Str) : trim t = [] ↔ ∀ c ∈ t, isWhitespace c = true := by
  unfold trim
  rw [rdropWhile_eq_nil_iff]
  constructor
  · intro h
    rw [← dropWhile_eq_nil_iff]
    by_contra hne
    have hhead := head_dropWhile_not isWhitespace hne
    rw [h _ (head_mem hne)] at hhead
    cases hhead
  · intro h c hc
    rw [dropWhile_eq_nil_iff.mpr h] at hc
    cases hc

/-- White space in front is trimmed. -/
theorem trim_append_left {ws : Str} (h : ∀ c ∈ ws, isWhitespace c = true) (t : Str) : trim (ws ++ t) = trim t := by
  unfold trim
  rw [dropWhile_append_of_pos h]

/-- White space at the end is trimmed. -/
theorem trim_append_right {ws : Str} (h : ∀ c ∈ ws, isWhitespace c = true) (t : Str) : trim (t ++ ws) = trim t := by
  by_cases hall : ∀ c ∈ t, isWhitespace c = true
  · rw [trim_append_left hall, (trim_eq_nil_iff ws).mpr h, (trim_eq_nil_iff t).mpr hall]
  · have hne : (t.dropWhile isWhitespace) ≠ [] := fun hnil => hall (dropWhile_eq_nil_iff.mp hnil)
    unfold trim
    rw [dropWhile_append, if_neg (by simpa using hne), List.rdropWhile, List.rdropWhile, reverse_append,
      dropWhile_append_of_pos (by simpa using h)]

theorem scan_cons_space {c : Char} (h : isWhitespace c = true) (quoted : Bool) (s : Str) :
    scan quoted (c :: s) = grow c (scan quoted s) := by
  obtain ⟨hquote, hbar, htilde, _⟩ := not_special h
  cases s with
  | nil => rfl
  | cons d rest => simp [scan, opAt, hquote, hbar, htilde]

/-- White space in front belongs to the first part. -/
theorem scan_append_left {ws : Str} (h : ∀ c ∈ ws, isWhitespace c = true) (quoted : Bool) (s : Str) :
    scan quoted (ws ++ s) = (ws ++ (scan quoted s).1, (scan quoted s).2) := by
  induction ws with
  | nil => rfl
  | cons c ws ih =>
    rw [cons_append, scan_cons_space (h c mem_cons_self), ih fun d hd => h d (mem_cons_of_mem c hd)]
    rfl

/-- White space at the end of the last text. -/
def extend (ws t : Str) : List (PipeOp × Str) → Str × List (PipeOp × Str)
  | [] => (t ++ ws, [])
  | (op, t') :: rest => (t, (op, (extend ws t' rest).1) :: (extend ws t' rest).2)

theorem extend_cons (ws t : Str) (c : Char) (rest : List (PipeOp × Str)) :
    extend ws (c :: t) rest = grow c (extend ws t rest) := by
  cases rest <;> rfl

/-- White space at the end belongs to the last part. -/
theorem scan_append_right {ws : Str} (h : ∀ c ∈ ws, isWhitespace c = true) (quoted : Bool) (s : Str) :
    scan quoted (s ++ ws) = extend ws (scan quoted s).1 (scan quoted s).2 := by
  have hws : ∀ q, scan q ws = (ws, []) := fun q => by simpa [scan] using scan_append_left h q []
  fun_induction scan quoted s with
  | case1 quoted => exact hws quoted
  | case2 quoted c =>
    cases ws with
    | nil => rfl
    | cons w ws =>
      have hgt := (not_special (h w mem_cons_self)).2.2.2
      simp [scan, opAt, hgt, hws, grow, extend]
  | case3 quoted d rest ih =>
    rw [cons_append, cons_append, scan, if_pos rfl, ← cons_append, ih]
    exact (extend_cons _ _ _ _).symm
  | case4 quoted c d rest hquote op hop ih =>
    rw [cons_append, cons_append, scan, if_neg hquote, hop]
    simp only [ih]
    rfl
  | case5 quoted c d rest hquote hop ih =>
    rw [cons_append, cons_append, scan, if_neg hquote, hop, ← cons_append]
    simp only [ih]
    exact (extend_cons _ _ _ _).symm

/-! ## The last part -/

/-- The text behind the last operator. -/
def lastText (t : Str) : List (PipeOp × Str) → Str
  | [] => t
  | (_, t') :: rest => lastText t' rest

/-- Only white space follows the last operator. -/
def EndsWithOperator (line : Str) : Prop := trim (lastText (scan false line).1 (scan false line).2) = []

/-- A part with its text trimmed. -/
def trimPart (part : PipeOp × Str) : PipeOp × Str := (part.1, trim part.2)

theorem getLast?_parts (op : PipeOp) (t : Str) (rest : List (PipeOp × Str)) :
    ((op, t) :: rest).getLast?.map Prod.snd = some (lastText t rest) := by
  induction rest generalizing op t with
  | nil => rfl
  | cons part rest ih =>
    rw [getLast?_cons_cons]
    exact ih part.1 part.2

theorem trim_lastText {t t' : Str} {op op' : PipeOp} {rest rest' : List (PipeOp × Str)}
    (h : ((op, t) :: rest).map trimPart = ((op', t') :: rest').map trimPart) :
    trim (lastText t rest) = trim (lastText t' rest') := by
  have hlast : ∀ (op : PipeOp) (t : Str) (rest : List (PipeOp × Str)),
      (((op, t) :: rest).map trimPart).getLast?.map Prod.snd = some (trim (lastText t rest)) := by
    intro op t rest
    rw [getLast?_map, Option.map_map, show Prod.snd ∘ trimPart = trim ∘ Prod.snd from rfl, ← Option.map_map,
      getLast?_parts]
    rfl
  have heq := hlast op t rest
  rw [h, hlast] at heq
  exact (Option.some.inj heq).symm

theorem extend_parts {ws : Str} (h : ∀ c ∈ ws, isWhitespace c = true) (op : PipeOp) (t : Str)
    (rest : List (PipeOp × Str)) :
    ((op, (extend ws t rest).1) :: (extend ws t rest).2).map trimPart = ((op, t) :: rest).map trimPart := by
  induction rest generalizing op t with
  | nil => simp [extend, trimPart, trim_append_right h]
  | cons part rest ih =>
    rw [extend, map_cons, ih part.1 part.2]
    rfl

/-- White space around a line does not matter. -/
theorem pipeline_trim (line : Str) : (pipeline (trim line)).map trimPart = (pipeline line).map trimPart := by
  have hfront := takeWhile_append_dropWhile (p := isWhitespace) (l := line)
  obtain ⟨back, hback, hspace⟩ : ∃ back, line.dropWhile isWhitespace = trim line ++ back ∧
      ∀ c ∈ back, isWhitespace c = true := by
    refine ⟨(line.dropWhile isWhitespace).rtakeWhile isWhitespace, ?_, ?_⟩
    · exact (rdropWhile_append_rtakeWhile).symm
    · exact fun c hc => mem_rtakeWhile_imp hc
  have hline : line = line.takeWhile isWhitespace ++ (trim line ++ back) := by rw [← hback, hfront]
  conv_rhs => rw [hline]
  rw [pipeline, pipeline, scan_append_left (fun c hc => mem_takeWhile_imp hc), scan_append_right hspace]
  simp only [map_cons, trimPart, trim_append_left (fun c hc => mem_takeWhile_imp hc)]
  exact (extend_parts hspace _ _ _).symm

/-- The text behind the last operator is the end of the line; without operators it is the line. -/
theorem lastText_suffix (quoted : Bool) (s : Str) :
    lastText (scan quoted s).1 (scan quoted s).2 <:+ s ∧ ((scan quoted s).2 = [] → (scan quoted s).1 = s) := by
  -- one more character in front of the first text
  have hgrow : ∀ (c : Char) (tail : Str) (r : Str × List (PipeOp × Str)),
      (lastText r.1 r.2 <:+ tail ∧ (r.2 = [] → r.1 = tail)) →
      lastText (grow c r).1 (grow c r).2 <:+ c :: tail ∧ ((grow c r).2 = [] → (grow c r).1 = c :: tail) := by
    rintro c tail ⟨t, rest⟩ ⟨hsuffix, hwhole⟩
    cases rest with
    | nil =>
      obtain rfl : t = tail := hwhole rfl
      exact ⟨suffix_refl _, fun _ => rfl⟩
    | cons part rest => exact ⟨hsuffix.trans (suffix_cons c tail), fun h => absurd h (cons_ne_nil _ _)⟩
  fun_induction scan quoted s with
  | case1 quoted => exact ⟨suffix_refl _, fun _ => rfl⟩
  | case2 quoted c => exact ⟨suffix_refl _, fun _ => rfl⟩
  | case3 quoted d rest ih => exact hgrow _ _ _ ih
  | case4 quoted c d rest hquote op hop ih =>
    refine ⟨ih.1.trans ?_, fun h => absurd h (cons_ne_nil _ _)⟩
    exact ⟨[c, d], rfl⟩
  | case5 quoted c d rest hquote hop ih => exact hgrow _ _ _ ih

/-- In a trimmed line a text of white space at the end is empty. -/
theorem lastText_trimmed (line : Str) :
    lastText (scan false (trim line)).1 (scan false (trim line)).2 = [] ↔ EndsWithOperator line := by
  have hsame : trim (lastText (scan false (trim line)).1 (scan false (trim line)).2) =
      trim (lastText (scan false line).1 (scan false line).2) := trim_lastText (pipeline_trim line)
  rw [EndsWithOperator, ← hsame]
  constructor
  · intro h
    rw [h]
    rfl
  · intro h
    by_contra hne
    obtain ⟨front, hfront⟩ := (lastText_suffix false (trim line)).1
    have hline : trim line ≠ [] := fun hnil => hne (append_eq_nil_iff.mp (hfront.trans hnil)).2
    have hlast := rdropWhile_last_not isWhitespace (line.dropWhile isWhitespace) hline
    rw [trim_eq_nil_iff] at h
    have hmem : ∀ (core : Str) (hcore : core ≠ []), front ++ lastText (scan false (trim line)).1 (scan false (trim line)).2 =
        core → core.getLast hcore ∈ lastText (scan false (trim line)).1 (scan false (trim line)).2 := by
      rintro _ hcore rfl
      rw [getLast_append_of_ne_nil hcore hne]
      exact getLast_mem hne
    exact hlast (h _ (hmem _ hline hfront))

/-! ## Faithful parsing -/

/-- The parts that the splitter finds: all, or all but an empty one at the end. -/
theorem before_assemble (op : PipeOp) (t : Str) (rest : List (PipeOp × Str)) : before op (assemble t rest) =
    if lastText t rest = [] then ((op, t) :: rest).dropLast else (op, t) :: rest := by
  induction rest generalizing op t with
  | nil =>
    rw [assemble, lastText]
    split_ifs <;> rfl
  | cons part rest ih =>
    rw [assemble, before, ih, lastText]
    split_ifs <;> rfl

/-- Steps depend on the trimmed texts only. -/
theorem joined_trim {parts parts' : List (PipeOp × Str)} {steps : List PipelineStep}
    (h : parts.map trimPart = parts'.map trimPart) (hsteps : List.Forall₂ Joined parts steps) :
    List.Forall₂ Joined parts' steps := by
  induction hsteps generalizing parts' with
  | nil =>
    cases parts' with
    | nil => exact List.Forall₂.nil
    | cons part parts' => cases h
  | cons hjoined _ ih =>
    cases parts' with
    | nil => cases h
    | cons part parts' =>
      obtain ⟨hpart, htail⟩ := List.cons.inj h
      obtain ⟨hop, htext⟩ := Prod.mk.inj hpart
      refine List.Forall₂.cons ?_ (ih htail)
      unfold Joined at hjoined ⊢
      rwa [← hop, ← htext]

/-- A line with a text has a segment. -/
theorem splitPipeline_ne_nil {input : Str} (h : input ≠ []) : splitPipeline input ≠ [] := by
  rw [splitPipeline_eq]
  cases hscan : (scan false input).2 with
  | nil =>
    have hwhole := (lastText_suffix false input).2 hscan
    rw [assemble, hwhole, if_neg h]
    exact cons_ne_nil _ _
  | cons part rest =>
    rw [assemble]
    exact cons_ne_nil _ _

/-- Words depend on the trimmed texts only. -/
theorem hasWord_trim {parts parts' : List (PipeOp × Str)} (h : parts.map trimPart = parts'.map trimPart)
    (hwords : ∀ part ∈ parts, part.1 = .deterministic → HasWord part.2) :
    ∀ part ∈ parts', part.1 = .deterministic → HasWord part.2 := by
  intro part hpart hop
  have hmem : trimPart part ∈ parts.map trimPart := h ▸ mem_map_of_mem hpart
  obtain ⟨part', hpart', heq⟩ := mem_map.mp hmem
  obtain ⟨hop', htext⟩ := Prod.mk.inj heq
  have hword := hwords part' hpart' (hop'.trans hop)
  rwa [HasWord, htext] at hword

/-- A line is refused, or parsed to as many steps as it has operators and one more, in order and each joined by the
operator before it, exactly if it does not end with an operator, or is blank, or a command before its last part has no
word. -/
theorem parse_faithful_iff (line : Str) :
    ((∃ e, parse line = .error e) ∨ ∃ ast, parse line = .ok ast ∧
      (flattenPipeline ast).length = (operators line).length + 1 ∧
      List.Forall₂ Joined (pipeline line) (flattenPipeline ast)) ↔
    ¬ EndsWithOperator line ∨ trim line = [] ∨
      ∃ part ∈ (pipeline line).dropLast, part.1 = .deterministic ∧ ¬ HasWord part.2 := by
  have hlength : (pipeline (trim line)).length = (operators line).length + 1 := by
    rw [← length_map trimPart, pipeline_trim, length_map, length_pipeline]
  have hfront : ((pipeline (trim line)).dropLast).map trimPart = ((pipeline line).dropLast).map trimPart := by
    rw [map_dropLast, pipeline_trim, ← map_dropLast]
  rw [← lastText_trimmed]
  cases hparse : parse line with
  | error e =>
    refine iff_of_true (.inl ⟨e, rfl⟩) ?_
    by_contra hnot
    obtain ⟨hempty, hblank, hwords⟩ : _ ∧ _ ∧ _ := by
      simpa only [not_or, not_not, not_exists, not_and] using hnot
    -- a line that ends with an operator and whose other commands have words is parsed
    have hok : ∃ ast, parse line = .ok ast := by
      refine (parse_ok_iff line).mpr ⟨splitPipeline_ne_nil hblank, hblank, ?_⟩
      rw [splitPipeline_eq, before_assemble, if_pos hempty]
      exact hasWord_trim hfront.symm hwords
    rw [hparse] at hok
    obtain ⟨ast, hast⟩ := hok
    cases hast
  | ok ast =>
    have hsteps := parse_steps hparse
    obtain ⟨-, hblank, hwords⟩ := (parse_ok_iff line).mp ⟨ast, hparse⟩
    rw [splitPipeline_eq, before_assemble] at hsteps hwords
    have hno : ¬ ∃ e, (Except.ok ast : Except String AstNode) = .error e := by
      rintro ⟨e, he⟩
      cases he
    rw [or_iff_right hno]
    constructor
    · rintro ⟨ast', hast, hcount, _⟩
      cases hast
      refine .inl fun hempty => ?_
      rw [if_pos hempty] at hsteps
      have hdrop := hsteps.length_eq
      rw [length_dropLast, hcount] at hdrop
      rw [pipeline] at hlength
      omega
    · intro hcases
      have hne : lastText (scan false (trim line)).1 (scan false (trim line)).2 ≠ [] := by
        intro hempty
        rw [if_pos hempty] at hwords
        rcases hcases with hne | hnil | ⟨part, hpart, hop, hnot⟩
        · exact hne hempty
        · exact hblank hnil
        · exact hnot (hasWord_trim hfront hwords part hpart hop)
      rw [if_neg hne] at hsteps
      have hjoined := joined_trim (pipeline_trim line) hsteps
      exact ⟨ast, rfl, by rw [← hjoined.length_eq, length_pipeline], hjoined⟩

/-- `a |>` has one operator and one step. -/
theorem trailing_operator_lost : operators ['a', ' ', '|', '>'] = [.deterministic] ∧
    (parse ['a', ' ', '|', '>']).map flattenPipeline = .ok [.cmd ⟨['a'], []⟩] := by
  decide +kernel

end Folkering.Shell
