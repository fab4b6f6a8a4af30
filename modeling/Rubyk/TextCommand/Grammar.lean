/-
  TextCommand/Grammar.lean --- the command language, as `src/core/text_command.rl`
  defines it: the regular expressions of the grammar without their actions, and the
  lines on which a command can be written.
-/
import Rubyk.Lib.PartialDerivatives
import Rubyk.TextCommand.Classes
import Rubyk.TextCommand.Parse

set_option autoImplicit false

namespace Rubyk.TextCommand

open RegularExpression Lib

/-! ## Expressions -/

namespace Grammar

/-- Any byte but these. -/
def but (ks : List Cls) : RegularExpression Cls :=
  oneOf (Cls.all.filter fun k => k ∉ ks)

/-- `comment` -/
def comment : RegularExpression Cls := char .hash * (but [.newline]).star

/-- `ws` -/
def ws : RegularExpression Cls := oneOf [.space, .tab]

/-- `identifier` -/
def identifier : RegularExpression Cls :=
  (char .lower + char .slash * opt (char .dot) + char .dot) *
    (oneOf [.lower, .upper, .digit, .underscore, .slash]).star

/-- `class` -/
def class_ : RegularExpression Cls :=
  char .upper * (oneOf [.lower, .upper, .digit, .underscore]).star

/-- One of the two forms of `string`. -/
def quoted (quote : Cls) : RegularExpression Cls :=
  char quote * ((but [quote, .backslash] + char Cls.newline + char Cls.backslash * but []).star *
    char quote)

/-- `string` -/
def string : RegularExpression Cls := quoted .doubleQuote + quoted .singleQuote

/-- `float` -/
def float : RegularExpression Cls :=
  opt (oneOf [.minus, .plus]) *
    (char .digit * (char .digit).star * (char .dot * many (char .digit)))

/-- `integer` -/
def integer : RegularExpression Cls :=
  opt (oneOf [.minus, .plus]) * (char .digit * (char .digit).star)

/-- `value` -/
def value : RegularExpression Cls := string + float + integer

/-- `param` -/
def param : RegularExpression Cls := identifier * (char .colon * (ws.star * value))

/-- `parameters` -/
def parameters : RegularExpression Cls :=
  value * (ws.star * (char Cls.comma * (ws.star * value))).star + many (param * ws.star)

/-- `create_instance` -/
def createInstance : RegularExpression Cls :=
  identifier * (ws.star * (char .equal * (ws.star * (class_ *
    (char .leftParen * (opt parameters * char .rightParen))))))

/-- `from_link` -/
def fromLink : RegularExpression Cls := identifier * opt (char .tilde * identifier)

/-- `to_link` -/
def toLink : RegularExpression Cls := opt (identifier * char .tilde) * identifier

/-- `create_link` -/
def createLink : RegularExpression Cls :=
  fromLink * (ws.star * (char .equal * (char .greater * (ws.star * toLink))))

/-- `remove_link` -/
def removeLink : RegularExpression Cls :=
  fromLink * (ws.star * (char .bar * (char .bar * (ws.star * toLink))))

/-- `execute_command` -/
def executeCommand : RegularExpression Cls :=
  identifier * opt (char .leftParen * (opt parameters * char .rightParen))

/-- `(ws* comment)?` -/
def tail : RegularExpression Cls := opt (ws.star * comment)

/-- The alternatives of `main` that run a command. -/
def command : RegularExpression Cls :=
  executeCommand + createInstance * tail + createLink * tail + removeLink * tail

/-- A line that runs a command. -/
def commandLine : RegularExpression Cls := command * char .newline

/-- A line of `main`. -/
def line : RegularExpression Cls := (command + comment + ws.star) * char .newline

end Grammar

/-- The text matches the expression. -/
def InLang (r : RegularExpression Cls) (w : Bytes) : Prop := w.map Cls.of ∈ r.matches'

instance (r : RegularExpression Cls) (w : Bytes) : Decidable (InLang r w) :=
  inferInstanceAs (Decidable (w.map Cls.of ∈ r.matches'))

/-! ## Commands -/

/-- A command, as it is written. -/
inductive Command where
  /-- `var = Class(params)` -/
  | create (var class_ params : Bytes)
  /-- `from~port => port~to` -/
  | link (fromNode : Bytes) (fromPort toPort : Option Bytes) (toNode : Bytes)
  /-- `from~port || port~to` -/
  | unlink (fromNode : Bytes) (fromPort toPort : Option Bytes) (toNode : Bytes)
  /-- `method(params)` -/
  | call (method params : Bytes)
  deriving DecidableEq, Repr

/-- The function that runs for the command and the strings it finds. -/
def Command.toCall : Command → Call
  | .create var class_ params => .createInstance var class_ params
  | .link fromNode fromPort toPort toNode =>
      .createLink fromNode (fromPort.getD []) (toPort.getD []) toNode
  | .unlink fromNode fromPort toPort toNode =>
      .removeLink fromNode (fromPort.getD []) (toPort.getD []) toNode
  | .call method params => .executeCommand method params

/-- The text between the parentheses. -/
def Params (w : Bytes) : Prop := InLang (opt Grammar.parameters) w

instance (w : Bytes) : Decidable (Params w) := inferInstanceAs (Decidable (InLang _ w))

/-- Blanks. -/
def Blanks (w : Bytes) : Prop := ∀ c ∈ w, Cls.of c = .space ∨ Cls.of c = .tab

instance (w : Bytes) : Decidable (Blanks w) :=
  inferInstanceAs (Decidable (∀ c ∈ w, Cls.of c = .space ∨ Cls.of c = .tab))

/-- What can follow a command on its line: `(ws* comment)?`. -/
inductive Tail : Bytes → Prop
  | nothing : Tail []
  | comment {w text : Bytes} : Blanks w → (∀ c ∈ text, c ≠ ch '\n') →
      Tail (w ++ ch '#' :: text)

/-- `var '~'` before a name, if a port is written. -/
inductive PortBefore : Option Bytes → Bytes → Prop
  | none : PortBefore none []
  | some {p : Bytes} : InLang Grammar.identifier p → PortBefore (some p) (p ++ [ch '~'])

/-- `'~' var` after a name, if a port is written. -/
inductive PortAfter : Option Bytes → Bytes → Prop
  | none : PortAfter none []
  | some {p : Bytes} : InLang Grammar.identifier p → PortAfter (some p) (ch '~' :: p)

/-- The lines on which a command can be written. -/
inductive Prints : Command → Bytes → Prop
  | create {v C ps w₁ w₂ t : Bytes} : InLang Grammar.identifier v → Blanks w₁ → Blanks w₂ →
      InLang Grammar.class_ C → Params ps → Tail t →
      Prints (.create v C ps)
        (v ++ (w₁ ++ ch '=' :: (w₂ ++ (C ++ ch '(' :: (ps ++ ch ')' :: (t ++ [ch '\n']))))))
  | link {f d p q w₁ w₂ t : Bytes} {fromPort toPort : Option Bytes} :
      InLang Grammar.identifier f → PortAfter fromPort p → Blanks w₁ → Blanks w₂ →
      PortBefore toPort q → InLang Grammar.identifier d → Tail t →
      Prints (.link f fromPort toPort d)
        (f ++ (p ++ (w₁ ++ ch '=' :: ch '>' :: (w₂ ++ (q ++ (d ++ (t ++ [ch '\n'])))))))
  | unlink {f d p q w₁ w₂ t : Bytes} {fromPort toPort : Option Bytes} :
      InLang Grammar.identifier f → PortAfter fromPort p → Blanks w₁ → Blanks w₂ →
      PortBefore toPort q → InLang Grammar.identifier d → Tail t →
      Prints (.unlink f fromPort toPort d)
        (f ++ (p ++ (w₁ ++ ch '|' :: ch '|' :: (w₂ ++ (q ++ (d ++ (t ++ [ch '\n'])))))))
  | bare {m : Bytes} : InLang Grammar.identifier m → Prints (.call m []) (m ++ [ch '\n'])
  | call {m ps : Bytes} : InLang Grammar.identifier m → Params ps →
      Prints (.call m ps) (m ++ ch '(' :: (ps ++ [ch ')', ch '\n']))

/-! ## Lines of the grammar -/

variable {r s : RegularExpression Cls} {k : Cls} {w : Bytes}

theorem inLang_mul : InLang (r * s) w ↔ ∃ u v, w = u ++ v ∧ InLang r u ∧ InLang s v := by
  simp only [InLang, matches'_mul, Language.mem_mul]
  constructor
  · rintro ⟨u, hu, v, hv, huv⟩
    obtain ⟨u, v, rfl, rfl, rfl⟩ := List.map_eq_append_iff.mp huv.symm
    exact ⟨u, v, rfl, hu, hv⟩
  · rintro ⟨u, v, rfl, hu, hv⟩
    exact ⟨_, hu, _, hv, (List.map_append).symm⟩

theorem inLang_add : InLang (r + s) w ↔ InLang r w ∨ InLang s w := by
  simp [InLang, Language.mem_add]

theorem inLang_opt : InLang (opt r) w ↔ InLang r w ∨ w = [] := by
  simp [InLang]

theorem inLang_char (hk : k ∉ Cls.sets) : InLang (char k) w ↔ w = [k.rep] := by
  have hchar : InLang (char k) w ↔ w.map Cls.of = [k] := Iff.rfl
  rw [hchar, List.map_eq_singleton_iff]
  constructor
  · rintro ⟨c, rfl, hc⟩
    rw [(Cls.of_eq_iff hk).mp hc]
  · rintro rfl
    exact ⟨_, rfl, Cls.of_rep k⟩

theorem inLang_blanks : InLang Grammar.ws.star w ↔ Blanks w := by
  rw [InLang, Grammar.ws, mem_star_oneOf]
  simp [Blanks]

theorem inLang_tail : InLang Grammar.tail w ↔ Tail w := by
  rw [Grammar.tail, inLang_opt, inLang_mul]
  have htext (text : Bytes) : InLang (Grammar.but [.newline]).star text ↔
      ∀ c ∈ text, c ≠ ch '\n' := by
    rw [InLang, Grammar.but, mem_star_oneOf]
    simp only [List.mem_map, List.mem_filter, forall_exists_index, and_imp,
      forall_apply_eq_imp_iff₂, decide_eq_true_eq, List.mem_singleton]
    exact forall₂_congr fun c _ =>
      ⟨fun h hc => h.2 (Cls.of_eq_newline.mpr hc),
        fun h => ⟨Cls.mem_all _, fun hc => h (Cls.of_eq_newline.mp hc)⟩⟩
  constructor
  · rintro (⟨u, v, rfl, hu, hv⟩ | rfl)
    · obtain ⟨hash, text, rfl, hhash, ht⟩ := inLang_mul.mp hv
      rw [(inLang_char (by decide)).mp hhash]
      exact .comment (inLang_blanks.mp hu) ((htext text).mp ht)
    · exact .nothing
  · rintro (_ | ⟨hw, ht⟩)
    · exact Or.inr rfl
    · exact Or.inl ⟨_, _, rfl, inLang_blanks.mpr hw, inLang_mul.mpr
        ⟨[ch '#'], _, rfl, (inLang_char (by decide)).mpr rfl, (htext _).mpr ht⟩⟩

theorem inLang_portAfter : InLang (opt (char .tilde * Grammar.identifier)) w ↔
    ∃ port, PortAfter port w := by
  rw [inLang_opt, inLang_mul]
  constructor
  · rintro (⟨u, p, rfl, hu, hp⟩ | rfl)
    · rw [(inLang_char (by decide)).mp hu]
      exact ⟨_, .some hp⟩
    · exact ⟨_, .none⟩
  · rintro ⟨port, _ | hp⟩
    · exact Or.inr rfl
    · exact Or.inl ⟨[ch '~'], _, rfl, (inLang_char (by decide)).mpr rfl, hp⟩

theorem inLang_portBefore : InLang (opt (Grammar.identifier * char .tilde)) w ↔
    ∃ port, PortBefore port w := by
  rw [inLang_opt, inLang_mul]
  constructor
  · rintro (⟨p, u, rfl, hp, hu⟩ | rfl)
    · rw [(inLang_char (by decide)).mp hu]
      exact ⟨_, .some hp⟩
    · exact ⟨_, .none⟩
  · rintro ⟨port, _ | hp⟩
    · exact Or.inr rfl
    · exact Or.inl ⟨_, [ch '~'], rfl, hp, (inLang_char (by decide)).mpr rfl⟩

/-- A byte of the grammar and what follows. -/
theorem inLang_char_mul (hk : k ∉ Cls.sets) :
    InLang (char k * r) w ↔ ∃ v, w = k.rep :: v ∧ InLang r v := by
  rw [inLang_mul]
  constructor
  · rintro ⟨u, v, rfl, hu, hv⟩
    rw [(inLang_char hk).mp hu]
    exact ⟨v, rfl, hv⟩
  · rintro ⟨v, rfl, hv⟩
    exact ⟨[k.rep], v, rfl, (inLang_char hk).mpr rfl, hv⟩

/-- The text in parentheses and what follows. -/
theorem inLang_params : InLang (char .leftParen * (opt Grammar.parameters * char .rightParen)) w ↔
    ∃ ps, w = ch '(' :: (ps ++ [ch ')']) ∧ Params ps := by
  rw [inLang_char_mul (by decide)]
  constructor
  · rintro ⟨v, rfl, hv⟩
    obtain ⟨ps, u, rfl, hps, hu⟩ := inLang_mul.mp hv
    rw [(inLang_char (by decide)).mp hu]
    exact ⟨ps, rfl, hps⟩
  · rintro ⟨ps, rfl, hps⟩
    exact ⟨_, rfl, inLang_mul.mpr ⟨ps, _, rfl, hps, (inLang_char (by decide)).mpr rfl⟩⟩

theorem inLang_createInstance : InLang Grammar.createInstance w ↔
    ∃ v w₁ w₂ C ps, w = v ++ (w₁ ++ ch '=' :: (w₂ ++ (C ++ ch '(' :: (ps ++ [ch ')'])))) ∧
      InLang Grammar.identifier v ∧ Blanks w₁ ∧ Blanks w₂ ∧ InLang Grammar.class_ C ∧
        Params ps := by
  rw [Grammar.createInstance, inLang_mul]
  constructor
  · rintro ⟨v, x, rfl, hv, hx⟩
    obtain ⟨w₁, sign, rfl, hw₁, hsign⟩ := inLang_mul.mp hx
    obtain ⟨y, rfl, hy⟩ := (inLang_char_mul (by decide)).mp hsign
    obtain ⟨w₂, z, rfl, hw₂, hz⟩ := inLang_mul.mp hy
    obtain ⟨C, paren, rfl, hC, hparen⟩ := inLang_mul.mp hz
    obtain ⟨ps, rfl, hps⟩ := inLang_params.mp hparen
    exact ⟨v, w₁, w₂, C, ps, rfl, hv, inLang_blanks.mp hw₁, inLang_blanks.mp hw₂, hC, hps⟩
  · rintro ⟨v, w₁, w₂, C, ps, rfl, hv, hw₁, hw₂, hC, hps⟩
    refine ⟨v, _, rfl, hv, inLang_mul.mpr ⟨w₁, _, rfl, inLang_blanks.mpr hw₁, ?_⟩⟩
    refine (inLang_char_mul (by decide)).mpr ⟨_, rfl, ?_⟩
    refine inLang_mul.mpr ⟨w₂, _, rfl, inLang_blanks.mpr hw₂, ?_⟩
    exact inLang_mul.mpr ⟨C, _, rfl, hC, inLang_params.mpr ⟨ps, rfl, hps⟩⟩

/-- `create_link` and `remove_link`: the two ends and the sign between them. -/
theorem inLang_link {k₁ k₂ : Cls} (hk₁ : k₁ ∉ Cls.sets) (hk₂ : k₂ ∉ Cls.sets) :
    InLang (Grammar.fromLink * (Grammar.ws.star * (char k₁ * (char k₂ *
        (Grammar.ws.star * Grammar.toLink))))) w ↔
      ∃ f d p q w₁ w₂ fromPort toPort,
        w = f ++ (p ++ (w₁ ++ k₁.rep :: k₂.rep :: (w₂ ++ (q ++ d)))) ∧
          InLang Grammar.identifier f ∧ PortAfter fromPort p ∧ Blanks w₁ ∧ Blanks w₂ ∧
            PortBefore toPort q ∧ InLang Grammar.identifier d := by
  rw [Grammar.fromLink, Grammar.toLink, inLang_mul]
  constructor
  · rintro ⟨x, rest, rfl, hx, hrest⟩
    obtain ⟨f, p, rfl, hf, hp⟩ := inLang_mul.mp hx
    obtain ⟨fromPort, hfromPort⟩ := inLang_portAfter.mp hp
    obtain ⟨w₁, sign, rfl, hw₁, hsign⟩ := inLang_mul.mp hrest
    obtain ⟨y, rfl, hy⟩ := (inLang_char_mul hk₁).mp hsign
    obtain ⟨z, rfl, hz⟩ := (inLang_char_mul hk₂).mp hy
    obtain ⟨w₂, v, rfl, hw₂, hv⟩ := inLang_mul.mp hz
    obtain ⟨q, d, rfl, hq, hd⟩ := inLang_mul.mp hv
    obtain ⟨toPort, htoPort⟩ := inLang_portBefore.mp hq
    exact ⟨f, d, p, q, w₁, w₂, fromPort, toPort, by simp, hf, hfromPort, inLang_blanks.mp hw₁,
      inLang_blanks.mp hw₂, htoPort, hd⟩
  · rintro ⟨f, d, p, q, w₁, w₂, fromPort, toPort, rfl, hf, hp, hw₁, hw₂, hq, hd⟩
    have hfrom := inLang_mul.mpr ⟨f, p, rfl, hf, inLang_portAfter.mpr ⟨fromPort, hp⟩⟩
    have hto := inLang_mul.mpr ⟨q, d, rfl, inLang_portBefore.mpr ⟨toPort, hq⟩, hd⟩
    refine ⟨f ++ p, _, (List.append_assoc f p _).symm, hfrom,
      inLang_mul.mpr ⟨w₁, _, rfl, inLang_blanks.mpr hw₁, ?_⟩⟩
    refine (inLang_char_mul hk₁).mpr ⟨_, rfl, (inLang_char_mul hk₂).mpr ⟨_, rfl, ?_⟩⟩
    exact inLang_mul.mpr ⟨w₂, _, rfl, inLang_blanks.mpr hw₂, hto⟩

theorem inLang_executeCommand : InLang Grammar.executeCommand w ↔
    InLang Grammar.identifier w ∨
      ∃ method ps, w = method ++ ch '(' :: (ps ++ [ch ')']) ∧
        InLang Grammar.identifier method ∧ Params ps := by
  rw [Grammar.executeCommand, inLang_mul]
  constructor
  · rintro ⟨method, x, rfl, hmethod, hx⟩
    rcases inLang_opt.mp hx with hx | rfl
    · obtain ⟨ps, rfl, hps⟩ := inLang_params.mp hx
      exact Or.inr ⟨method, ps, rfl, hmethod, hps⟩
    · exact Or.inl (by rwa [List.append_nil])
  · rintro (hw | ⟨method, ps, rfl, hmethod, hps⟩)
    · exact ⟨w, [], (List.append_nil w).symm, hw, inLang_opt.mpr (Or.inr rfl)⟩
    · exact ⟨method, _, rfl, hmethod, inLang_opt.mpr (Or.inl (inLang_params.mpr ⟨ps, rfl, hps⟩))⟩

/-- The lines of commands are the lines of the grammar. -/
theorem prints_iff : (∃ command, Prints command w) ↔ InLang Grammar.commandLine w := by
  have hnewline (x : Bytes) : InLang (char .newline) x ↔ x = [ch '\n'] :=
    inLang_char (by decide)
  rw [Grammar.commandLine, inLang_mul]
  simp only [Grammar.command, inLang_add, hnewline]
  constructor
  · rintro ⟨command, hline⟩
    cases hline with
    | create hv hw₁ hw₂ hC hps ht =>
      refine ⟨_, _, ?_, Or.inl (Or.inl (Or.inr (inLang_mul.mpr
        ⟨_, _, rfl, inLang_createInstance.mpr ⟨_, _, _, _, _, rfl, hv, hw₁, hw₂, hC, hps⟩,
          inLang_tail.mpr ht⟩))), rfl⟩
      simp
    | link hf hp hw₁ hw₂ hq hd ht =>
      refine ⟨_, _, ?_, Or.inl (Or.inr (inLang_mul.mpr
        ⟨_, _, rfl, (inLang_link (by decide) (by decide)).mpr
          ⟨_, _, _, _, _, _, _, _, rfl, hf, hp, hw₁, hw₂, hq, hd⟩, inLang_tail.mpr ht⟩)), rfl⟩
      simp [Cls.rep, ch]
    | unlink hf hp hw₁ hw₂ hq hd ht =>
      refine ⟨_, _, ?_, Or.inr (inLang_mul.mpr
        ⟨_, _, rfl, (inLang_link (by decide) (by decide)).mpr
          ⟨_, _, _, _, _, _, _, _, rfl, hf, hp, hw₁, hw₂, hq, hd⟩, inLang_tail.mpr ht⟩), rfl⟩
      simp [Cls.rep, ch]
    | bare hmethod =>
      exact ⟨_, _, rfl, Or.inl (Or.inl (Or.inl (inLang_executeCommand.mpr (Or.inl hmethod)))),
        rfl⟩
    | call hmethod hps =>
      refine ⟨_, _, ?_, Or.inl (Or.inl (Or.inl (inLang_executeCommand.mpr
        (Or.inr ⟨_, _, rfl, hmethod, hps⟩)))), rfl⟩
      simp
  · rintro ⟨x, _, rfl, ((hx | hx) | hx) | hx, rfl⟩
    · rcases inLang_executeCommand.mp hx with hx | ⟨method, ps, rfl, hmethod, hps⟩
      · exact ⟨_, .bare hx⟩
      · have h := Prints.call hmethod hps
        exact ⟨_, by simpa using h⟩
    · obtain ⟨u, t, rfl, hu, ht⟩ := inLang_mul.mp hx
      obtain ⟨v, w₁, w₂, C, ps, rfl, hv, hw₁, hw₂, hC, hps⟩ := inLang_createInstance.mp hu
      have h := Prints.create hv hw₁ hw₂ hC hps (inLang_tail.mp ht)
      exact ⟨_, by simpa using h⟩
    · obtain ⟨u, t, rfl, hu, ht⟩ := inLang_mul.mp hx
      obtain ⟨f, d, p, q, w₁, w₂, fromPort, toPort, rfl, hf, hp, hw₁, hw₂, hq, hd⟩ :=
        (inLang_link (by decide) (by decide)).mp hu
      have h := Prints.link hf hp hw₁ hw₂ hq hd (inLang_tail.mp ht)
      exact ⟨_, by simpa [Cls.rep, ch] using h⟩
    · obtain ⟨u, t, rfl, hu, ht⟩ := inLang_mul.mp hx
      obtain ⟨f, d, p, q, w₁, w₂, fromPort, toPort, rfl, hf, hp, hw₁, hw₂, hq, hd⟩ :=
        (inLang_link (by decide) (by decide)).mp hu
      have h := Prints.unlink hf hp hw₁ hw₂ hq hd (inLang_tail.mp ht)
      exact ⟨_, by simpa [Cls.rep, ch] using h⟩

end Rubyk.TextCommand
