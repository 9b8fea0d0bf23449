import ImapRequest.Proofs.Framing
import ImapRequest.Session

/-!
# Requests and sessions on lines

The next request starts right behind the line feed of a line that announces no literal, wherever
the line was rejected; so a session on such lines answers them one by one, each as if it were alone.

* `Request.decode_line` : the answer to a line and the position behind it;
* `Session.answers_of_lines` : the answers of a session on lines.
-/

namespace ImapRequest

open Decoder
open Octet (IsPlainLine IsWaitingLine)

namespace Cursor

/-- The line is in front of the cursor, which is on a steady source. -/
structure OnLine (c : Cursor) (line : List UInt8) : Prop where
  steady : c.Steady
  rest_eq : ∃ more, c.rest = line ++ Octet.lf :: more

namespace OnLine

variable {c : Cursor} {line w t : List UInt8}

theorem advance (h : c.OnLine (w ++ t)) : (c.advance w.length).OnLine t := by
  obtain ⟨more, hrest⟩ := h.rest_eq
  exact ⟨h.steady.advance _, more, by
    rw [rest_advance, hrest, List.append_assoc, List.drop_left]⟩

end OnLine

end Cursor

namespace Decoder

/-- At the end of a line that is understood its line break is read, unless it is rejected within the
line. -/
theorem eol_line (leniency : Leniency) {line : List UInt8} (hline : Octet.lf ∉ line) :
    (∀ c : Cursor, c.OnLine line → eol leniency c = (.ok (), c.advance (line.length + 1))) ∨
    ∃ w t error, line = w ++ t ∧ ∀ c : Cursor, c.OnLine line →
      eol leniency c = (.error (.rejected error), c.advance w.length) := by
  cases line with
  | nil =>
    cases hbare : leniency.bareLineFeed with
    | true =>
      refine Or.inl fun c hc => ?_
      obtain ⟨more, hrest⟩ := hc.rest_eq
      exact eol_of_lf hc.steady hrest hbare
    | false =>
      refine Or.inr ⟨[], [], .unexpected Octet.lf "CRLF", rfl, fun c hc => ?_⟩
      obtain ⟨more, hrest⟩ := hc.rest_eq
      exact eol_of_strict_lf hc.steady hrest hbare
  | cons b t =>
    rw [List.mem_cons, not_or] at hline
    by_cases hcr : b = Octet.cr
    · subst hcr
      cases t with
      | nil =>
        refine Or.inl fun c hc => ?_
        obtain ⟨more, hrest⟩ := hc.rest_eq
        exact eol_of_crlf hc.steady hrest
      | cons b t =>
        have hb : b ≠ Octet.lf := by
          rintro rfl
          exact hline.2 List.mem_cons_self
        refine Or.inr ⟨[Octet.cr], b :: t, .unexpected b "end of line", rfl, fun c hc => ?_⟩
        obtain ⟨more, hrest⟩ := hc.rest_eq
        exact eol_of_cr hc.steady hrest hb
    · refine Or.inr ⟨[], b :: t, .unexpected b "end of line", rfl, fun c hc => ?_⟩
      obtain ⟨more, hrest⟩ := hc.rest_eq
      exact eol_of_ne hc.steady hrest hcr (Ne.symm hline.1)

theorem discardLine_of_waiting {c : Cursor} {line : List UInt8} (hline : IsWaitingLine line)
    (hc : c.OnLine line) : discardLine c = (.ok (), c.advance (line.length + 1)) := by
  obtain ⟨more, hrest⟩ := hc.rest_eq
  refine discardLine_of_none hc.steady hrest hline.no_lf (Option.eq_none_iff_forall_not_mem.2 ?_)
  intro n hn
  obtain ⟨front, ds, tail, rfl, hds, htail⟩ := Announcement.length?_after.1 hn
  exact hline.no_announcement front ds n tail (by rw [List.append_assoc]) hds htail

end Decoder

namespace Request

variable {line : List UInt8} (ctx : Context)

/-- Whether the tag can be read is decided by the line. -/
theorem tag?_line (hline : IsPlainLine line) :
    ∃ tag, ∀ c : Cursor, c.OnLine line → tag? c = tag := by
  have hinline : Inline 0 {} Tag.decode := Tag.decode_inline
  obtain ⟨w, t, r, -, -, -, hrun⟩ := hinline.contained hline
  cases r with
  | error f =>
    refine ⟨none, fun c hc => ?_⟩
    obtain ⟨more, hrest⟩ := hc.rest_eq
    rw [tag?, hrun c more hc.steady hrest]
  | ok tag =>
    refine ⟨some tag, fun c hc => ?_⟩
    obtain ⟨more, hrest⟩ := hc.rest_eq
    rw [tag?, hrun c more hc.steady hrest]

/-- What follows a rejection within a line is discarded with its line feed. -/
theorem decode_line_of_rejected (hline : IsPlainLine line) {w t : List UInt8}
    (error : DecodingError) (hsplit : line = w ++ t)
    (hread : ∀ c : Cursor, c.OnLine line →
      read ctx c = (.error (.rejected error), c.advance w.length)) :
    ∃ request, ∀ c : Cursor, c.OnLine line →
      decode ctx c = (.ok request, c.advance (line.length + 1)) := by
  obtain ⟨tag, htag⟩ := tag?_line hline
  refine ⟨.malformed tag error, fun c hc => ?_⟩
  subst hsplit
  rw [decode_of_rejected (hread c hc), htag c hc,
    discard_of_ok (discardLine_of_waiting hline.of_append.isWaitingLine hc.advance),
    Cursor.advance_advance,
    List.length_append, Nat.add_assoc]

/-- A line is one request, and what it is depends on the line alone; or a literal that the line
announces beyond the limit ends the connection. -/
theorem decode_line (hline : IsPlainLine line) :
    (∃ request, ∀ c : Cursor, c.OnLine line →
      decode ctx c = (.ok request, c.advance (line.length + 1))) ∨
    ∃ n k, k ≤ line.length ∧ ctx.maxLiteral < n ∧
      (∃ ds, Decimal.IsNumber ds n ∧ LiteralMode.atOnce.announced ds <:+: line) ∧
      ∀ c : Cursor, c.OnLine line →
        decode ctx c = (.error (.literalTooLarge n ctx.maxLiteral), c.advance k) := by
  obtain ⟨w, t, r, hsplit, hconclusive, hrefused, hrun⟩ := (parse_inline ctx).contained hline
  have hparse : ∀ c : Cursor, c.OnLine line → parse ctx c = (r, c.advance w.length) := by
    intro c hc
    obtain ⟨more, hrest⟩ := hc.rest_eq
    exact hrun c more hc.steady hrest
  cases r with
  | error f =>
    have hread : ∀ c : Cursor, c.OnLine line → read ctx c = (.error f, c.advance w.length) :=
      fun c hc => bind_of_error (hparse c hc)
    cases f with
    | rejected error => exact Or.inl (decode_line_of_rejected ctx hline error hsplit hread)
    | io io => exact absurd rfl (hconclusive io)
    | literalTooLarge n m =>
      obtain ⟨rfl, hn, hds⟩ := hrefused n m rfl
      refine Or.inr ⟨n, w.length, ?_, hn, hds, fun c hc => decode_of_fatal (hread c hc) rfl⟩
      rw [hsplit, List.length_append]
      omega
  | ok command =>
    subst hsplit
    -- The command is complete if the line is, and otherwise it is rejected where the line goes on.
    rcases eol_line ctx.leniency hline.of_append.no_lf with heol | ⟨w', t', error, rfl, heol⟩
    · refine Or.inl ⟨.command command, fun c hc => ?_⟩
      have hread : read ctx c = (.ok command, c.advance (w.length + (t.length + 1))) := by
        rw [read, bind_of_ok (hparse c hc), bind_of_ok (heol _ hc.advance),
          Cursor.advance_advance]
        rfl
      rw [decode_of_ok hread, List.length_append, Nat.add_assoc]
    · refine Or.inl (decode_line_of_rejected ctx hline error
        (List.append_assoc w w' t').symm fun c hc => ?_)
      rw [read, bind_of_ok (hparse c hc), bind_of_error (heol _ hc.advance),
        Cursor.advance_advance, List.length_append]

end Request

namespace Session

/-- The answers up to the first that ends the connection. -/
def throughFailure : List (Except Failure Request) → List (Except Failure Request)
  | [] => []
  | .error f :: _ => [.error f]
  | .ok request :: answers => .ok request :: throughFailure answers

/-- The answer to a line that is sent alone. -/
def answerAlone (ctx : Context) (line : List UInt8) : Except Failure Request :=
  (Request.decode ctx (.ofOctets (line ++ [Octet.lf]))).1

/-- Lines, each with its line feed. -/
def joinLines (lines : List (List UInt8)) : List UInt8 :=
  lines.flatMap fun line => line ++ [Octet.lf]

variable {ctx : Context} {c : Cursor} {line : List UInt8} {lines : List (List UInt8)}

theorem onLine_alone (line : List UInt8) :
    (Cursor.ofOctets (line ++ [Octet.lf])).OnLine line where
  steady := by intro link hlink; simp [Cursor.ofOctets] at hlink
  rest_eq := ⟨[], rfl⟩

theorem length_le_joinLines (lines : List (List UInt8)) :
    lines.length ≤ (joinLines lines).length := by
  induction lines with
  | nil => simp
  | cons line lines ih =>
    simp only [joinLines, List.flatMap_cons, List.length_append, List.length_cons,
      List.length_nil] at ih ⊢
    omega

theorem onLine_joinLines (hc : c.Steady) (hrest : c.rest = joinLines (line :: lines)) :
    c.OnLine line where
  steady := hc
  rest_eq := ⟨joinLines lines, by rw [hrest]; simp [joinLines]⟩

/-- A line is answered as if it were alone, and the next line stands behind it. -/
theorem decode_joinLines (ctx : Context) (hc : c.Steady)
    (hrest : c.rest = joinLines (line :: lines))
    (hline : IsPlainLine line) :
    (∃ request, answerAlone ctx line = .ok request ∧
      Request.decode ctx c = (.ok request, c.advance (line.length + 1))) ∨
    ∃ f e, answerAlone ctx line = .error f ∧ Request.decode ctx c = (.error f, e) := by
  have hon := onLine_joinLines hc hrest
  rcases Request.decode_line ctx hline with ⟨request, hrun⟩ | ⟨n, k, -, -, -, hrun⟩
  · exact Or.inl ⟨request, by rw [answerAlone, hrun _ (onLine_alone line)], hrun c hon⟩
  · exact Or.inr ⟨_, _, by rw [answerAlone, hrun _ (onLine_alone line)], hrun c hon⟩

/-- By induction on the lines: behind each of them stands the next one. -/
theorem stepsUpTo_of_lines (lines : List (List UInt8)) : ∀ {limit : Nat} {c : Cursor}
    {line : List UInt8}, c.Steady → c.rest = joinLines (line :: lines) → lines.length < limit →
    (∀ l ∈ line :: lines, IsPlainLine l) →
    (stepsUpTo ctx limit c).map Step.answer =
      throughFailure ((line :: lines).map (answerAlone ctx)) := by
  induction lines with
  | nil =>
    intro limit c line hc hrest hlimit hlines
    obtain ⟨limit, rfl⟩ := Nat.exists_eq_succ_of_ne_zero (Nat.ne_of_gt (Nat.zero_lt_of_lt hlimit))
    have hline : IsPlainLine line := hlines line List.mem_cons_self
    rcases decode_joinLines ctx hc hrest hline with ⟨request, halone, hrun⟩ |
      ⟨f, e, halone, hrun⟩
    · -- Nothing stands behind the last line.
      have hend : (c.advance (line.length + 1)).isConsumed = true := by
        rw [Cursor.isConsumed_eq (hc.advance _), Cursor.rest_advance, hrest]
        simp [joinLines]
      simp [stepsUpTo, hrun, halone, hend, throughFailure]
    · simp [stepsUpTo, hrun, halone, throughFailure]
  | cons next lines ih =>
    intro limit c line hc hrest hlimit hlines
    obtain ⟨limit, rfl⟩ := Nat.exists_eq_succ_of_ne_zero (Nat.ne_of_gt (Nat.zero_lt_of_lt hlimit))
    have hline : IsPlainLine line := hlines line List.mem_cons_self
    rcases decode_joinLines ctx hc hrest hline with ⟨request, halone, hrun⟩ |
      ⟨f, e, halone, hrun⟩
    · -- Behind the line feed stands the next line.
      have hnext : (c.advance (line.length + 1)).rest = joinLines (next :: lines) := by
        have hsplit : c.rest = (line ++ [Octet.lf]) ++ joinLines (next :: lines) := hrest
        rw [Cursor.rest_advance, hsplit, List.drop_left' (by simp)]
      have hmore : (c.advance (line.length + 1)).isConsumed = false := by
        rw [Cursor.isConsumed_eq (hc.advance _), hnext]
        simp [joinLines]
      have hrec := ih (hc.advance (line.length + 1)) hnext (Nat.lt_of_succ_lt_succ hlimit)
        fun l hl => hlines l (List.mem_cons_of_mem _ hl)
      simp only [stepsUpTo, hrun, hmore, Bool.false_eq_true, ↓reduceIte, List.map_cons, hrec,
        halone, throughFailure]
    · simp [stepsUpTo, hrun, halone, throughFailure]

/-- **Framing.**  A line that announces no literal is answered with the position right behind its
line feed and without asking for data, unless a literal in it is refused; and a session on such
lines answers each of them as if it were alone. -/
theorem answers_of_lines (ctx : Context) (hc : c.Steady) :
    (∀ line more, c.rest = line ++ Octet.lf :: more → IsPlainLine line →
      (∃ request, Request.decode ctx c = (.ok request, c.advance (line.length + 1))) ∨
      ∃ n k ds, Request.decode ctx c = (.error (.literalTooLarge n ctx.maxLiteral), c.advance k) ∧
        k ≤ line.length ∧ ctx.maxLiteral < n ∧ Decimal.IsNumber ds n ∧
        LiteralMode.atOnce.announced ds <:+: line) ∧
    ∀ line lines, c.rest = joinLines (line :: lines) → (∀ l ∈ line :: lines, IsPlainLine l) →
      (steps ctx c).map Step.answer = throughFailure ((line :: lines).map (answerAlone ctx)) := by
  refine ⟨fun line more hrest hline => ?_, fun line lines hrest hlines => ?_⟩
  · rcases Request.decode_line ctx hline with ⟨request, hrun⟩ | ⟨n, k, hk, hn, ⟨ds, hds, hin⟩, hrun⟩
    · exact Or.inl ⟨request, hrun c ⟨hc, more, hrest⟩⟩
    · exact Or.inr ⟨n, k, ds, hrun c ⟨hc, more, hrest⟩, hk, hn, hds, hin⟩
  · refine stepsUpTo_of_lines lines hc hrest ?_ hlines
    have hle := length_le_joinLines (line :: lines)
    rw [List.length_cons] at hle
    rw [hrest]
    omega

/-- A line with an unknown command, and one with a command: the first is rejected for itself, and
the second is understood behind it. -/
theorem answers_of_lines_rejected_first :
    (Cursor.ofOctets (Octet.ofText "A NOP\r\nB NOOP\r\n")).Steady ∧
      (steps {} (.ofOctets (Octet.ofText "A NOP\r\nB NOOP\r\n"))).map Step.answer =
        [.ok (.malformed (some ⟨"A"⟩) (.unknownCommand "NOP")), .ok (.command ⟨⟨"B"⟩, .noop⟩)] := by
  have hc : (Cursor.ofOctets (Octet.ofText "A NOP\r\nB NOOP\r\n")).Steady := by
    intro link hlink
    simp [Cursor.ofOctets] at hlink
  have hfirst : IsPlainLine (Octet.ofText "A NOP\r") := .of_all (by cbv)
  have hsecond : IsPlainLine (Octet.ofText "B NOOP\r") := .of_all (by cbv)
  have h := (answers_of_lines {} hc).2 (Octet.ofText "A NOP\r") [Octet.ofText "B NOOP\r"] (by cbv)
    (by simpa using ⟨hfirst, hsecond⟩)
  exact ⟨hc, h.trans (by cbv)⟩

end Session

end ImapRequest
