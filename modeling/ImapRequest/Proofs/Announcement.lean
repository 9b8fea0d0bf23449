import ImapRequest.Proofs.Text

/-!
# The end of a line

Whether a line that is discarded announces a literal is decided by its end: the octets `{n+}`, and
at most one carriage return after them.

* `LiteralMode.announced` : the announcement of a literal;
* `Announcement.length?_after` : a line announces a literal exactly when it ends in an announcement;
* `Decoder.discardFrom_line` : discarding a line, whatever it announces.
-/

namespace ImapRequest

/-- The sign behind the length of a literal. -/
def LiteralMode.sign : LiteralMode → List UInt8
  | onRequest => []
  | atOnce => [Octet.plus]

/-- The announcement of a literal, with its length in digits. -/
def LiteralMode.announced (mode : LiteralMode) (ds : List UInt8) : List UInt8 :=
  Octet.lbrace :: (ds ++ (mode.sign ++ [Octet.rbrace]))

/-- The line breaks that are accepted. -/
def Leniency.IsBreak (leniency : Leniency) (brk : List UInt8) : Prop :=
  brk = [Octet.cr, Octet.lf] ∨ brk = [Octet.lf] ∧ leniency.bareLineFeed = true

/-- What may stand between an announcement and the line feed. -/
def Octet.IsLineTail (tail : List UInt8) : Prop := tail = [] ∨ tail = [cr]

namespace Announcement

/-- The state after octets of a line. -/
def after (a : Announcement) (bs : List UInt8) : Announcement := bs.foldl advance a

/-- The octets that a state stands for, which are the last ones before the position. -/
def Spells : Announcement → List UInt8 → Prop
  | .none, s => s = []
  | .opened, s => s = [Octet.lbrace]
  | .digits n, s => ∃ ds, Decimal.IsNumber ds n ∧ s = Octet.lbrace :: ds
  | .plus n, s => ∃ ds, Decimal.IsNumber ds n ∧ s = Octet.lbrace :: (ds ++ [Octet.plus])
  | .closed n, s => ∃ ds, Decimal.IsNumber ds n ∧ s = LiteralMode.atOnce.announced ds
  | .cr n, s => ∃ ds, Decimal.IsNumber ds n ∧ s = LiteralMode.atOnce.announced ds ++ [Octet.cr]

variable {a : Announcement} {s ds : List UInt8} {b : UInt8} {n : Nat}

/-- One more octet either belongs to the announcement or is the end of it. -/
theorem Spells.advance (h : Spells a s) (b : UInt8) :
    ∃ front t, s ++ [b] = front ++ t ∧ Spells (a.advance b) t := by
  by_cases hb : b = Octet.lbrace
  · subst hb
    exact ⟨s, [Octet.lbrace], rfl, rfl⟩
  -- An octet that does not fit leaves nothing of the announcement.
  have hnone : ∃ front t, s ++ [b] = front ++ t ∧ Spells .none t := ⟨s ++ [b], [], by simp, rfl⟩
  have hne : (b == Octet.lbrace) = false := by simpa using hb
  simp only [Announcement.advance, hne, Bool.false_eq_true, ↓reduceIte]
  cases a with
  | none => exact hnone
  | opened =>
    obtain rfl : s = [Octet.lbrace] := h
    dsimp only
    split
    · rename_i hdigit
      have hvalue : Decimal.value [b] = Octet.digitValue b := by
        simp [Decimal.value, Decimal.extend_cons, Decimal.extend_nil]
      refine ⟨[], _, rfl, [b], ⟨by simp, by simpa using hdigit, hvalue, ?_⟩, rfl⟩
      have hle : b.toNat < 256 := b.toNat_lt
      simp only [Octet.digitValue, Decimal.maxNumber]
      omega
    · exact hnone
  | digits n =>
    obtain ⟨ds, hds, rfl⟩ := h
    dsimp only
    split
    · rename_i hdigit
      split
      · rename_i hle
        refine ⟨[], _, rfl, ds ++ [b], ⟨by simp, ?_, ?_, hle⟩, rfl⟩
        · simpa [hdigit] using hds.all_isDigit
        · rw [Decimal.value, Decimal.extend_append, ← Decimal.value, hds.value_eq]
          rfl
      · exact hnone
    split
    · rename_i hplus
      obtain rfl : b = Octet.plus := by simpa using hplus
      exact ⟨[], _, rfl, ds, hds, rfl⟩
    · exact hnone
  | plus n =>
    obtain ⟨ds, hds, rfl⟩ := h
    dsimp only
    split
    · rename_i hbrace
      obtain rfl : b = Octet.rbrace := by simpa using hbrace
      exact ⟨[], _, rfl, ds, hds, by simp [LiteralMode.announced, LiteralMode.sign]⟩
    · exact hnone
  | closed n =>
    obtain ⟨ds, hds, rfl⟩ := h
    dsimp only
    split
    · rename_i hcr
      obtain rfl : b = Octet.cr := by simpa using hcr
      exact ⟨[], _, rfl, ds, hds, rfl⟩
    · exact hnone
  | cr n => exact hnone

theorem spells_after (h : Spells a s) (bs : List UInt8) :
    ∃ front t, s ++ bs = front ++ t ∧ Spells (a.after bs) t := by
  induction bs generalizing a s with
  | nil => exact ⟨[], s, by simp, h⟩
  | cons b bs ih =>
    obtain ⟨front, t, heq, ht⟩ := h.advance b
    obtain ⟨front', t', heq', ht'⟩ := ih ht
    refine ⟨front ++ front', t', ?_, ht'⟩
    rw [List.append_assoc, ← heq', ← List.append_assoc, ← heq, List.append_assoc]
    rfl

theorem after_append (a : Announcement) (xs ys : List UInt8) :
    a.after (xs ++ ys) = (a.after xs).after ys := List.foldl_append

theorem advance_digits (hb : Octet.isDigit b = true)
    (hle : 10 * n + Octet.digitValue b ≤ Decimal.maxNumber) :
    (digits n).advance b = digits (10 * n + Octet.digitValue b) := by
  have hne : (b == Octet.lbrace) = false := by
    rw [beq_eq_false_iff_ne]
    rintro rfl
    exact absurd hb (by decide)
  simp [Announcement.advance, hne, hb, hle]

theorem after_digits (ds : List UInt8) : ∀ {n : Nat}, ds.all Octet.isDigit = true →
    Decimal.extend n ds ≤ Decimal.maxNumber →
    (digits n).after ds = digits (Decimal.extend n ds) := by
  induction ds with
  | nil => intro n _ _; rfl
  | cons d ds ih =>
    intro n hds hle
    rw [List.all_cons, Bool.and_eq_true] at hds
    rw [Decimal.extend_cons] at hle ⊢
    have hle' := Nat.le_trans (Decimal.le_extend _ ds) hle
    change ((digits n).advance d).after ds = _
    rw [advance_digits hds.1 hle', ih hds.2 hle]

theorem after_opened (hds : Decimal.IsNumber ds n) : opened.after ds = digits n := by
  obtain ⟨d, ds, rfl⟩ := List.exists_cons_of_ne_nil hds.ne_nil
  obtain ⟨hd, hds'⟩ : Octet.isDigit d = true ∧ ds.all Octet.isDigit = true := by
    simpa using hds.all_isDigit
  have hne : (d == Octet.lbrace) = false := by
    rw [beq_eq_false_iff_ne]
    rintro rfl
    exact absurd hd (by decide)
  have hvalue : Decimal.extend (Octet.digitValue d) ds = n := by
    have h := hds.value_eq
    rwa [Decimal.value, Decimal.extend_cons, Nat.mul_zero, Nat.zero_add] at h
  have hfirst : opened.advance d = digits (Octet.digitValue d) := by
    simp [Announcement.advance, hne, hd]
  change (opened.advance d).after ds = _
  rw [hfirst, after_digits ds hds' (by rw [hvalue]; exact hds.le_maxNumber), hvalue]

theorem after_announced (a : Announcement) (hds : Decimal.IsNumber ds n) :
    a.after (LiteralMode.atOnce.announced ds) = closed n := by
  have hopen : a.advance Octet.lbrace = opened := rfl
  change (a.advance Octet.lbrace).after (ds ++ [Octet.plus, Octet.rbrace]) = _
  rw [hopen, after_append, after_opened hds]
  rfl

/-- A line announces a literal exactly when it ends in an announcement. -/
theorem length?_after {line : List UInt8} :
    (Announcement.none.after line).length? = some n ↔
      ∃ front ds tail, line = front ++ LiteralMode.atOnce.announced ds ++ tail ∧
        Decimal.IsNumber ds n ∧
        Octet.IsLineTail tail := by
  constructor
  · intro h
    -- Only two states announce a length, and both say which octets led to them.
    obtain ⟨front, t, heq, ht⟩ := spells_after (a := .none) (s := []) rfl line
    rw [List.nil_append] at heq
    rcases hstate : Announcement.none.after line with _ | _ | m | m | m | m <;>
      rw [hstate] at h ht
    · simp [length?] at h
    · simp [length?] at h
    · simp [length?] at h
    · simp [length?] at h
    · obtain rfl : m = n := by simpa [length?] using h
      obtain ⟨ds, hds, rfl⟩ := ht
      exact ⟨front, ds, [], by rw [heq, List.append_nil], hds, Or.inl rfl⟩
    · obtain rfl : m = n := by simpa [length?] using h
      obtain ⟨ds, hds, rfl⟩ := ht
      exact ⟨front, ds, [Octet.cr], by rw [heq, List.append_assoc], hds, Or.inr rfl⟩
  · rintro ⟨front, ds, tail, rfl, hds, htail⟩
    rw [after_append, after_append, after_announced _ hds]
    rcases htail with rfl | rfl <;> rfl

end Announcement

namespace Decoder

variable {c : Cursor} {s : List UInt8}

/-- After an announcement a literal is refused, or its line has to end. -/
theorem announcement_of_number (ctx : Context) (hc : c.Steady) {mode : LiteralMode}
    {ds : List UInt8} {n : Nat} (hrest : c.rest = mode.announced ds ++ s)
    (hds : Decimal.IsNumber ds n) :
    announcement ctx c = (if ctx.maxLiteral < n then
        match mode with
        | .atOnce => fail (.literalTooLarge n ctx.maxLiteral)
        | .onRequest => reject (.literalTooLong n ctx.maxLiteral)
      else do
        eol ctx.leniency
        return (n, mode)) (c.advance (mode.announced ds).length) := by
  have h : c.rest = Octet.lbrace :: (ds ++ (mode.sign ++ Octet.rbrace :: s)) := by
    rw [hrest, LiteralMode.announced]
    simp
  have h₁ : (c.advance 1).rest = ds ++ (mode.sign ++ Octet.rbrace :: s) := by
    rw [Cursor.rest_advance, h]
    rfl
  have h₂ : ((c.advance 1).advance ds.length).rest = mode.sign ++ Octet.rbrace :: s :=
    Cursor.rest_advance_append h₁
  -- The digits end at the plus sign or at the brace.
  have hend : ∀ b ∈ (mode.sign ++ Octet.rbrace :: s).head?, Octet.isDigit b = false := by
    cases mode <;> simp [LiteralMode.sign] <;> decide
  have hc₂ := (hc.advance 1).advance ds.length
  rw [announcement_eq, bind_of_ok (expect_of_rest hc h),
    bind_of_ok (digits_of_le (hc.advance 1) h₁ hds hend)]
  cases mode with
  | onRequest =>
    rw [bind_of_ok (literalMode_of_ne hc₂ h₂ (by decide)), bind_of_ok (expect_of_rest hc₂ h₂),
      Cursor.advance_advance, Cursor.advance_advance]
    simp [LiteralMode.announced, LiteralMode.sign, Nat.add_comm]
  | atOnce =>
    have h₃ : (((c.advance 1).advance ds.length).advance 1).rest = Octet.rbrace :: s := by
      rw [Cursor.rest_advance, h₂]
      rfl
    rw [bind_of_ok (literalMode_of_plus hc₂ h₂), bind_of_ok (expect_of_rest (hc₂.advance 1) h₃),
      Cursor.advance_advance, Cursor.advance_advance, Cursor.advance_advance]
    simp [LiteralMode.announced, LiteralMode.sign, Nat.add_comm]

/-- A line break of the kind that is accepted is read. -/
theorem eol_of_isBreak {leniency : Leniency} {brk : List UInt8} (hc : c.Steady)
    (hbrk : leniency.IsBreak brk) (hrest : c.rest = brk ++ s) :
    eol leniency c = (.ok (), c.advance brk.length) := by
  rcases hbrk with rfl | ⟨rfl, hbare⟩
  · exact eol_of_crlf hc hrest
  · exact eol_of_lf hc hrest hbare

/-- A line break that was read is one of the kind that is accepted. -/
theorem rest_of_eol {leniency : Leniency} (hc : c.Steady) {u : Unit} {e : Cursor}
    (h : eol leniency c = (.ok u, e)) :
    ∃ brk s, leniency.IsBreak brk ∧ c.rest = brk ++ s ∧ e = c.advance brk.length := by
  cases hrest : c.rest with
  | nil =>
    obtain ⟨io, hio⟩ : ∃ io, eol leniency c = (.error (.io io), c) := eol_of_nil hrest
    simp [hio] at h
  | cons b t =>
    by_cases hcr : b = Octet.cr
    · subst hcr
      cases t with
      | nil =>
        obtain ⟨io, hio⟩ : ∃ io, eol leniency c = (.error (.io io), c.advance 1) :=
          eol_of_cr_nil hc hrest
        simp [hio] at h
      | cons b t =>
        by_cases hlf : b = Octet.lf
        · subst hlf
          rw [eol_of_crlf hc hrest] at h
          exact ⟨[Octet.cr, Octet.lf], t, Or.inl rfl, rfl, (congrArg Prod.snd h).symm⟩
        · simp [eol_of_cr hc hrest hlf] at h
    by_cases hlf : b = Octet.lf
    · subst hlf
      cases hbare : leniency.bareLineFeed with
      | true =>
        rw [eol_of_lf hc hrest hbare] at h
        exact ⟨[Octet.lf], t, Or.inr ⟨rfl, hbare⟩, rfl, (congrArg Prod.snd h).symm⟩
      | false => simp [eol_of_strict_lf hc hrest hbare] at h
    · simp [eol_of_ne hc hrest hcr hlf] at h

theorem rest_of_literalMode (hc : c.Steady) {mode : LiteralMode} {e : Cursor}
    (h : literalMode c = (.ok mode, e)) :
    ∃ s, c.rest = mode.sign ++ s ∧ e = c.advance mode.sign.length := by
  cases hrest : c.rest with
  | nil =>
    obtain ⟨io, hio⟩ := peek_of_nil hrest
    simp [literalMode, bind_of_error hio] at h
  | cons b t =>
    by_cases hplus : b = Octet.plus
    · subst hplus
      rw [literalMode_of_plus hc hrest] at h
      obtain ⟨rfl, rfl⟩ : .atOnce = mode ∧ c.advance 1 = e := by simpa using h
      exact ⟨t, rfl, rfl⟩
    · rw [literalMode_of_ne hc hrest hplus] at h
      obtain ⟨rfl, rfl⟩ : .onRequest = mode ∧ c = e := by simpa using h
      exact ⟨b :: t, rfl, rfl⟩

/-- An announcement of at most `limit` octets, and the line break after it. -/
structure Announces (limit : Nat) (leniency : Leniency) (mode : LiteralMode) (n : Nat)
    (w : List UInt8) : Prop where
  exists_eq : ∃ ds brk, w = mode.announced ds ++ brk ∧ Decimal.IsNumber ds n ∧ leniency.IsBreak brk
  le_limit : n ≤ limit

theorem Announces.ne_nil {limit : Nat} {leniency : Leniency} {mode : LiteralMode} {n : Nat}
    {w : List UInt8} (h : Announces limit leniency mode n w) : w ≠ [] := by
  obtain ⟨ds, brk, rfl, -⟩ := h.exists_eq
  simp [LiteralMode.announced]

/-- An announcement within the limit is read together with its line break. -/
theorem announcement_of_announces {ctx : Context} {mode : LiteralMode} {n : Nat} {w : List UInt8}
    (hc : c.Steady) (h : Announces ctx.maxLiteral ctx.leniency mode n w) (hrest : c.rest = w ++ s) :
    announcement ctx c = (.ok (n, mode), c.advance w.length) := by
  obtain ⟨ds, brk, rfl, hds, hbrk⟩ := h.exists_eq
  rw [List.append_assoc] at hrest
  have hrest' : (c.advance (mode.announced ds).length).rest = brk ++ s :=
    Cursor.rest_advance_append hrest
  rw [announcement_of_number ctx hc hrest hds, if_neg (Nat.not_lt.2 h.le_limit),
    bind_of_ok (eol_of_isBreak (hc.advance _) hbrk hrest'), pure_apply, Cursor.advance_advance,
    List.length_append]

/-- What was read as an announcement is one. -/
theorem announces_of_announcement (ctx : Context) (hc : c.Steady) {mode : LiteralMode} {n : Nat}
    {e : Cursor} (h : announcement ctx c = (.ok (n, mode), e)) :
    ∃ w, Announces ctx.maxLiteral ctx.leniency mode n w ∧ c.Reaches w e ∧
      e = c.advance w.length := by
  rw [announcement_eq] at h
  obtain ⟨_, c₁, h₁, h⟩ := exists_of_bind h
  obtain ⟨s₁, hrest₁, rfl⟩ := rest_of_expect hc h₁
  obtain ⟨m, c₂, h₂, h⟩ := exists_of_bind h
  obtain ⟨ds, s₂, hrest₂, hds, rfl⟩ := rest_of_digits (hc.advance 1) h₂
  have hc₂ := (hc.advance 1).advance ds.length
  obtain ⟨mode', c₃, h₃, h⟩ := exists_of_bind h
  obtain ⟨s₃, hrest₃, rfl⟩ := rest_of_literalMode hc₂ h₃
  have hc₃ := hc₂.advance mode'.sign.length
  obtain ⟨_, c₄, h₄, h⟩ := exists_of_bind h
  obtain ⟨s₄, hrest₄, rfl⟩ := rest_of_expect hc₃ h₄
  have hc₄ := hc₃.advance 1
  -- Behind the closing brace the limit is looked at, and the line has to end.
  by_cases hlimit : ctx.maxLiteral < m
  · rw [if_pos hlimit] at h
    cases mode' <;> simp [fail, reject] at h
  rw [if_neg hlimit] at h
  obtain ⟨_, c₅, h₅, h⟩ := exists_of_bind h
  obtain ⟨brk, s, hbrk, hrest₅, rfl⟩ := rest_of_eol hc₄ h₅
  rw [pure_apply] at h
  obtain ⟨⟨rfl, rfl⟩, rfl⟩ := by simpa using h
  have hreaches := ((((Cursor.Reaches.front (w := [Octet.lbrace]) hrest₁).trans
    (.front hrest₂)).trans (.front hrest₃)).trans (.front (w := [Octet.rbrace]) hrest₄)).trans
    (.front hrest₅)
  have hw : [Octet.lbrace] ++ ds ++ mode'.sign ++ [Octet.rbrace] ++ brk =
      mode'.announced ds ++ brk := by simp [LiteralMode.announced]
  rw [hw] at hreaches
  refine ⟨mode'.announced ds ++ brk, ⟨⟨ds, brk, rfl, hds, hbrk⟩, Nat.not_lt.1 hlimit⟩,
    hreaches, ?_⟩
  simp only [Cursor.advance_advance, ← hw, List.length_append, List.length_cons, List.length_nil]

/-- Discarding goes through a line, as far as its line feed. -/
theorem discardFrom_line (line : List UInt8) : ∀ {c : Cursor} (a : Announcement), c.Steady →
    c.rest = line ++ s → Octet.lf ∉ line →
    discardFrom a c = discardFrom (a.after line) (c.advance line.length) := by
  induction line with
  | nil => intro c a _ _ _; rfl
  | cons b line ih =>
    intro c a hc hrest hline
    rw [List.mem_cons, not_or] at hline
    have hrest' : (c.advance 1).rest = line ++ s := by rw [Cursor.rest_advance, hrest]; rfl
    rw [discardFrom_of_ne hc hrest (Ne.symm hline.1), ih _ (hc.advance 1) hrest' hline.2,
      Cursor.advance_advance, List.length_cons, Nat.add_comm 1]
    rfl

/-- A line that announces nothing is discarded with its line feed. -/
theorem discardLine_of_none (hc : c.Steady) {line : List UInt8}
    (hrest : c.rest = line ++ Octet.lf :: s) (hline : Octet.lf ∉ line)
    (h : (Announcement.none.after line).length? = none) :
    discardLine c = (.ok (), c.advance (line.length + 1)) := by
  have hrest' : (c.advance line.length).rest = Octet.lf :: s := Cursor.rest_advance_append hrest
  change discardFrom .none c = _
  rw [discardFrom_line line _ hc hrest hline, discardFrom_of_lf (hc.advance _) hrest' h,
    Cursor.advance_advance]

/-- A line that announces a literal is discarded with its data and the line after them. -/
theorem discardLine_of_some (hc : c.Steady) {line : List UInt8} {n : Nat}
    (hrest : c.rest = line ++ Octet.lf :: s) (hline : Octet.lf ∉ line)
    (h : (Announcement.none.after line).length? = some n) :
    discardLine c = (do skip n; discardFrom .none) (c.advance (line.length + 1)) := by
  have hrest' : (c.advance line.length).rest = Octet.lf :: s := Cursor.rest_advance_append hrest
  change discardFrom .none c = _
  rw [discardFrom_line line _ hc hrest hline, discardFrom_of_announced (hc.advance _) hrest' h,
    Cursor.advance_advance]

end Decoder

end ImapRequest
