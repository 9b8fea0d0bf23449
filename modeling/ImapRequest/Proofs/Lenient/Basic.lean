import ImapRequest.Proofs.Announcement
import ImapRequest.Proofs.Written.Dates

/-!
# What is accepted beyond the grammar

A decoder that accepts more is compared with one that accepts less.  Whatever the stricter one does
not reject the other one does as well; and whatever the other one reads the stricter one reads once
it is *tidied*: line feeds alone behind announcements of literals become proper line breaks, and a
space in front of the last line break may go.

* `Tidied`, `Trimmed` : octets before and after they are tidied;
* `Follows` : what may stand behind tidied octets in place of what stood there;
* `Decoder.Keeps`, `Decoder.TidiesAt` : the two ways in which decoders are compared;
* `Decoder.Relaxes`, `Decoder.Relaxes.bind`, `Decoder.Relaxes.look` : how relaxed decoders are put
  together;
* `Decoder.literalOctets_relaxes` and the lemmas around it : the decoders that others are made of.
-/

namespace ImapRequest

open Sent

/-- What is accepted here is accepted there. -/
structure Leniency.Within (strict loose : Leniency) : Prop where
  bareLineFeed : strict.bareLineFeed = true → loose.bareLineFeed = true
  trailingSpace : strict.trailingSpace = true → loose.trailingSpace = true

/-- Nothing is accepted beyond the grammar. -/
def Leniency.strict : Leniency := { bareLineFeed := false, trailingSpace := false }

namespace Context

/-- The same context, with this accepted beyond the grammar. -/
def accepting (ctx : Context) (leniency : Leniency) : Context := { ctx with leniency }

/-- Contexts that differ at most in that more is accepted in the second one. -/
structure Loosens (strict loose : Context) : Prop where
  charset_eq : loose.charset = strict.charset
  maxLiteral_eq : loose.maxLiteral = strict.maxLiteral
  within : strict.leniency.Within loose.leniency

end Context

/-- The line breaks that are accepted, by what stands in front of the line feed. -/
theorem Leniency.IsBreak.exists_tail {leniency : Leniency} {brk : List UInt8}
    (h : leniency.IsBreak brk) : ∃ tail, Octet.IsLineTail tail ∧ brk = tail ++ [Octet.lf] := by
  rcases h with rfl | ⟨rfl, -⟩
  · exact ⟨[Octet.cr], Or.inr rfl, rfl⟩
  · exact ⟨[], Or.inl rfl, rfl⟩

/-! ### Tidied octets -/

/-- The octets that may go, or may have another one put in front of them. -/
def Octet.isBlank (b : UInt8) : Bool := b == sp || isLineBreak b

/-- A class without spaces and line breaks. -/
theorem Octet.not_of_isBlank {p : UInt8 → Bool} (hsp : p sp = false) (hcr : p cr = false)
    (hlf : p lf = false) (b : UInt8) (hb : isBlank b = true) : p b = false := by
  simp only [isBlank, isLineBreak, Bool.or_eq_true, beq_iff_eq] at hb
  rcases hb with rfl | rfl | rfl
  · exact hsp
  · exact hcr
  · exact hlf

theorem Octet.isBlank_of_isLineBreak {b : UInt8} (hb : isLineBreak b = true) :
    isBlank b = true := by
  rw [isBlank, hb, Bool.or_true]

/-- The same octets, where every announcement of a literal ends in a proper line break.  Octets of
line breaks stand nowhere else but in the data of literals. -/
inductive Tidied : List UInt8 → List UInt8 → Prop
  | nil : Tidied [] []
  | octet {b : UInt8} {w w' : List UInt8} (hb : Octet.isLineBreak b = false) (h : Tidied w w') :
    Tidied (b :: w) (b :: w')
  | literal {ds tail data w w' : List UInt8} (mode : LiteralMode)
    (hds : Decimal.IsNumber ds data.length) (htail : Octet.IsLineTail tail) (h : Tidied w w') :
    Tidied (mode.announced ds ++ (tail ++ Octet.lf :: (data ++ w)))
      (mode.announced ds ++ (Octet.cr :: Octet.lf :: (data ++ w')))

/-- The same octets tidied, where a space in front of the line break that follows may go if `trims`.
The octets `r` are those that follow. -/
inductive Trimmed (trims : Prop) (r : List UInt8) : List UInt8 → List UInt8 → Prop
  | tidied {w w' : List UInt8} (h : Tidied w w') : Trimmed trims r w w'
  | space {w w' : List UInt8} (htrims : trims) (h : Tidied w w')
    (hr : ∃ b ∈ r.head?, Octet.isLineBreak b = true) : Trimmed trims r (w ++ [Octet.sp]) w'

/-- In place of the octets `r` there may be the octets `s`: their first octet is the same, or a line
break in place of a space or of another line break. -/
def Follows (r s : List UInt8) : Prop :=
  r.head? = s.head? ∨
    (∃ b ∈ r.head?, Octet.isBlank b = true) ∧ ∃ b ∈ s.head?, Octet.isLineBreak b = true

namespace Tidied

variable {v v' w w' : List UInt8}

theorem append (hv : Tidied v v') (hw : Tidied w w') : Tidied (v ++ w) (v' ++ w') := by
  induction hv with
  | nil => exact hw
  | octet hb _ ih => exact .octet hb ih
  | literal mode hds htail _ ih =>
    simp only [List.append_assoc, List.cons_append]
    exact .literal mode hds htail ih

theorem refl (h : ∀ b ∈ w, Octet.isLineBreak b = false) : Tidied w w := by
  induction w with
  | nil => exact .nil
  | cons b w ih =>
    exact .octet (h b (List.mem_cons_self ..)) (ih fun c hc => h c (List.mem_cons_of_mem _ hc))

/-- The first octet stays. -/
theorem head?_eq (h : Tidied w w') : w.head? = w'.head? := by
  cases h <;> rfl

end Tidied

namespace Follows

variable {r s w w' : List UInt8}

theorem of_head?_eq (h : r.head? = s.head?) : Follows r s := Or.inl h

/-- An octet that is neither a space nor of a line break is the same. -/
theorem exists_cons {b : UInt8} (h : Follows r s) (hr : r.head? = some b)
    (hb : Octet.isBlank b = false) : ∃ u, s = b :: u := by
  rcases h with h | ⟨⟨b', hb', hblank⟩, -⟩
  · exact List.head?_eq_some_iff.1 (h.symm.trans hr)
  · obtain rfl : b' = b := Option.some.inj (hb'.symm.trans hr)
    simp [hb] at hblank

/-- In place of a space or of a line break there is one of them. -/
theorem exists_blank {b : UInt8} (h : Follows r s) (hr : r.head? = some b)
    (hb : Octet.isBlank b = true) : ∃ b' u, Octet.isBlank b' = true ∧ s = b' :: u := by
  rcases h with h | ⟨-, b', hb', hbreak⟩
  · exact ⟨b, _, hb, (List.head?_eq_some_iff.1 (h.symm.trans hr)).choose_spec⟩
  · exact ⟨b', _, Octet.isBlank_of_isLineBreak hbreak,
      (List.head?_eq_some_iff.1 hb').choose_spec⟩

/-- In place of a line break there may be a proper one. -/
theorem line_break {tail : List UInt8} (htail : Octet.IsLineTail tail) (r s : List UInt8) :
    Follows (tail ++ Octet.lf :: r) (Octet.cr :: s) := by
  refine Or.inr ⟨?_, Octet.cr, rfl, rfl⟩
  rcases htail with rfl | rfl
  · exact ⟨Octet.lf, rfl, rfl⟩
  · exact ⟨Octet.cr, rfl, rfl⟩

/-- No space comes in place of something else. -/
theorem ne_sp (h : Follows r s) (hr : r.head? ≠ some Octet.sp) : s.head? ≠ some Octet.sp := by
  intro hs
  rcases h with h | ⟨-, b, hb, hbreak⟩
  · exact hr (h.trans hs)
  · obtain rfl : b = Octet.sp := Option.some.inj (hb.symm.trans hs)
    exact absurd hbreak (by decide)

/-- A class that has neither spaces nor line breaks ends in front of both or of neither. -/
theorem stops {p : UInt8 → Bool} (h : Follows r s) (hp : ∀ b, Octet.isBlank b = true → p b = false)
    (hr : Stops p r) : Stops p s := by
  intro b hb
  rcases h with h | ⟨-, b', hb', hbreak⟩
  · exact hr b (h ▸ hb)
  · obtain rfl : b' = b := Option.some.inj (hb'.symm.trans hb)
    exact hp b' (Octet.isBlank_of_isLineBreak hbreak)

end Follows

namespace Trimmed

variable {trims : Prop} {r s v v' w w' : List UInt8}

theorem append (hv : Tidied v v') (hw : Trimmed trims r w w') :
    Trimmed trims r (v ++ w) (v' ++ w') := by
  cases hw with
  | tidied h => exact .tidied (hv.append h)
  | space htrims h hr =>
    rw [← List.append_assoc]
    exact .space htrims (hv.append h) hr

theorem tidied_of_not (h : Trimmed trims r w w') (htrims : ¬ trims) : Tidied w w' := by
  cases h with
  | tidied h => exact h
  | space h => exact absurd h htrims

/-- What follows octets may follow them where more is tidied. -/
theorem follows (h : Trimmed trims r w w') (hrs : Follows r s) : Follows (w ++ r) (w' ++ s) := by
  have htidied : ∀ {w w' : List UInt8}, Tidied w w' → w ≠ [] → ∀ r, (w ++ r).head? =
      (w' ++ s).head? := by
    intro w w' h hne r
    have hhead := h.head?_eq
    obtain ⟨b, u, rfl⟩ := List.exists_cons_of_ne_nil hne
    obtain ⟨u', rfl⟩ : ∃ u', w' = b :: u' := List.head?_eq_some_iff.1 hhead.symm
    rfl
  cases h with
  | tidied h =>
    by_cases hnil : w = []
    · subst hnil
      obtain rfl : w' = [] := List.head?_eq_none_iff.1 h.head?_eq.symm
      exact hrs
    · exact .of_head?_eq (htidied h hnil r)
  | @space w w' _ h hr =>
    by_cases hnil : w = []
    · subst hnil
      obtain rfl : w' = [] := List.head?_eq_none_iff.1 h.head?_eq.symm
      -- The space has gone, and a line break is in its place.
      refine Or.inr ⟨⟨Octet.sp, rfl, rfl⟩, ?_⟩
      rcases hrs with hrs | ⟨-, hs⟩
      · exact hrs ▸ hr
      · exact hs
    · rw [List.append_assoc]
      exact .of_head?_eq (htidied h hnil _)

end Trimmed

namespace Decoder

variable {α β : Type}

/-! ### What is not rejected stays -/

/-- What the first decoder does not reject the second one does as well. -/
def Keeps (x y : Decoder α) : Prop :=
  ∀ c, (∀ error d, x c ≠ (.error (.rejected error), d)) → y c = x c

namespace Keeps

variable {x y : Decoder α} {f g : α → Decoder β}

theorem refl (x : Decoder α) : Keeps x x := fun _ _ => rfl

theorem bind (hx : Keeps x y) (hf : ∀ a, Keeps (f a) (g a)) : Keeps (x >>= f) (y >>= g) := by
  intro c h
  have hc : y c = x c := hx c fun error d hrun => h error d (bind_of_error hrun)
  rcases hrun : x c with ⟨e | a, d⟩ <;> rw [hrun] at hc
  · rw [bind_of_error hrun, bind_of_error hc]
  · rw [bind_of_ok hc, bind_of_ok hrun]
    exact hf a d fun error e hrejected => h error e ((bind_of_ok hrun).trans hrejected)

theorem ite {p : Prop} [Decidable p] {x' y' : Decoder α} (hx : Keeps x y) (hx' : Keeps x' y') :
    Keeps (if p then x else x') (if p then y else y') := by
  split
  · exact hx
  · exact hx'

/-- A decoder that rejects everything is no restriction. -/
theorem reject (e : DecodingError) (y : Decoder α) : Keeps (reject e) y :=
  fun c h => absurd rfl (h e c)

/-- Where the next octet is looked at first, it is enough to compare what is done behind it. -/
theorem look {f g : UInt8 → Decoder α} (h : ∀ b, ∃ x y : Decoder α, Keeps x y ∧
    ∀ c : Cursor, c.peek = .ok b → f b c = x c ∧ g b c = y c) :
    Keeps (peek >>= f) (peek >>= g) := by
  intro c hx
  cases hpeek : c.peek with
  | error e =>
    have hfail : peek c = (.error (.io e), c) := by simp only [peek, ofIo, hpeek]; rfl
    rw [bind_of_error hfail, bind_of_error hfail]
  | ok b =>
    obtain ⟨x, y, hkeeps, heq⟩ := h b
    rw [bind_of_ok (peek_of_peek hpeek), (heq c hpeek).1] at hx
    rw [bind_of_ok (peek_of_peek hpeek), bind_of_ok (peek_of_peek hpeek), (heq c hpeek).1,
      (heq c hpeek).2]
    exact hkeeps c hx

theorem manyUpTo {more more' : Decoder Bool} (hmore : Keeps more more') (hx : Keeps x y)
    (limit : Nat) : Keeps (manyUpTo more x limit) (manyUpTo more' y limit) := by
  induction limit with
  | zero => exact refl _
  | succ limit ih =>
    exact hmore.bind fun _ => .ite (hx.bind fun _ => ih.bind fun _ => refl _) (refl _)

theorem many {more more' : Decoder Bool} (hmore : Keeps more more') (hx : Keeps x y) :
    Keeps (many more x) (many more' y) :=
  (refl bound).bind fun _ => hmore.manyUpTo hx _

theorem eol {strict loose : Leniency} (h : strict.Within loose) :
    Keeps (eol strict) (eol loose) := by
  refine (refl _).bind fun next => .ite (refl _) (.ite ?_ (refl _))
  cases hstrict : strict.bareLineFeed with
  | true => rw [if_pos rfl, if_pos (h.bareLineFeed hstrict)]; exact refl _
  | false => exact reject _ _

theorem literalOctets {ctx ctx' : Context} (hlimit : ctx'.maxLiteral = ctx.maxLiteral)
    (hleniency : ctx.leniency.Within ctx'.leniency) :
    Keeps (literalOctets ctx) (literalOctets ctx') := by
  have hannouncement : Keeps (announcement ctx) (announcement ctx') := by
    rw [announcement_eq, announcement_eq, hlimit]
    exact (refl _).bind fun _ => (refl _).bind fun _ => (refl _).bind fun _ => (refl _).bind
      fun _ => .ite (refl _) ((eol hleniency).bind fun _ => refl _)
  exact hannouncement.bind fun _ => refl _

end Keeps

/-! ### What is read stays when it is tidied -/

/-- What the second decoder reads from `c` on the first one reads as well, with the same outcome,
once it is tidied.  A space may only go if `trims` holds of the outcome. -/
def TidiesAt (trims : α → Prop) (x y : Decoder α) (c : Cursor) : Prop :=
  ∀ a e, y c = (.ok a, e) → ∃ w t, c.Reaches w e ∧ Trimmed (trims a) e.rest w (octets t) ∧
    Reads x {t} (Follows e.rest) a

theorem Reads.congr {x y : Decoder α} {L : Language Sent} {F : List UInt8 → Prop} {a : α}
    (h : ∀ c : Cursor, c.Steady → x c = y c) (hy : Reads y L F a) : Reads x L F a := by
  intro t ht s hs c hc hrest
  rw [h c hc.steady]
  exact hy t ht s hs c hc hrest

theorem Reads.of_mem {x : Decoder α} {L : Language Sent} {F : List UInt8 → Prop} {a : α}
    {t : List Sent} (h : Reads x L F a) (ht : t ∈ L) : Reads x {t} F a := by
  intro u hu
  obtain rfl : u = t := hu
  exact h u ht

namespace TidiesAt

variable {trims : α → Prop} {x y : Decoder α} {c : Cursor}

/-- Octets outside literals stay as they are. -/
theorem of_reads (h : ∀ a e, y c = (.ok a, e) → ∃ w s, c.rest = w ++ s ∧ e = c.advance w.length ∧
    (∀ b ∈ w, Octet.isLineBreak b = false) ∧ Reads x {plain w} (Follows s) a) :
    TidiesAt trims x y c := by
  intro a e hrun
  obtain ⟨w, s, hrest, rfl, hw, hread⟩ := h a e hrun
  have hreaches : c.Reaches w (c.advance w.length) := .front hrest
  obtain rfl : (c.advance w.length).rest = s :=
    List.append_cancel_left (hreaches.rest_eq.symm.trans hrest)
  refine ⟨w, plain w, hreaches, ?_, hread⟩
  rw [octets_plain]
  exact .tidied (.refl hw)

theorem of_error {y : Decoder α} (h : ∀ a e, y c ≠ (.ok a, e)) : TidiesAt trims x y c :=
  fun a e hrun => absurd hrun (h a e)

theorem pure (a : α) (c : Cursor) : TidiesAt trims (pure a) (pure a) c := by
  refine of_reads fun b e hrun => ?_
  obtain ⟨rfl, rfl⟩ : a = b ∧ c = e := by simpa [pure_apply] using hrun
  exact ⟨[], c.rest, rfl, rfl, by simp, (Reads.pure a).of_mem ((Language.mem_one _).2 rfl)⟩

theorem reject (e : DecodingError) (c : Cursor) : TidiesAt trims x (reject e) c :=
  of_error fun a d hrun => by simp [Decoder.reject, fail] at hrun

theorem ofExcept (r : Except DecodingError α) (c : Cursor) :
    TidiesAt trims (ofExcept r) (ofExcept r) c := by
  cases r with
  | ok a => exact pure a c
  | error e => exact reject e c

theorem congr {x' y' : Decoder α} (hc : c.Steady) (hx : ∀ d : Cursor, d.Steady → x d = x' d)
    (hy : ∀ d : Cursor, d.Steady → y d = y' d) (h : TidiesAt trims x' y' c) :
    TidiesAt trims x y c := by
  intro a e hrun
  obtain ⟨w, t, hw, htrimmed, hread⟩ := h a e ((hy c hc).symm.trans hrun)
  exact ⟨w, t, hw, htrimmed, hread.congr hx⟩

/-- One after the other.  No space goes but at the end. -/
theorem bind {trims : β → Prop} {f g : α → Decoder β} (hc : c.Steady)
    (hx : TidiesAt (fun _ => False) x y c)
    (hf : ∀ a d, d.Steady → y c = (.ok a, d) → TidiesAt trims (f a) (g a) d) :
    TidiesAt trims (x >>= f) (y >>= g) c := by
  intro b e hrun
  obtain ⟨a, d, hy, hrun⟩ := exists_of_bind hrun
  obtain ⟨v, t, hv, htidied, hread⟩ := hx a d hy
  obtain ⟨w, u, hw, htrimmed, hread'⟩ := hf a d (hv.steady hc) hy b e hrun
  refine ⟨v ++ w, t ++ u, hv.trans hw, ?_, ?_⟩
  · rw [octets_append]
    exact .append (htidied.tidied_of_not id) htrimmed
  · refine (hread.bind hread' ?_).of_mem (Language.append_mem_mul rfl rfl)
    rintro _ rfl s hs
    rw [hw.rest_eq]
    exact htrimmed.follows hs

theorem map {trims : β → Prop} (f : α → β) (hx : TidiesAt (fun a => trims (f a)) x y c) :
    TidiesAt trims (do return f (← x)) (do return f (← y)) c := by
  intro b e hrun
  obtain ⟨a, hy, rfl⟩ := exists_of_map hrun
  obtain ⟨w, t, hw, htrimmed, hread⟩ := hx a e hy
  exact ⟨w, t, hw, htrimmed, hread.map f⟩

theorem ite {p : Prop} [Decidable p] {x' y' : Decoder α} (hx : TidiesAt trims x y c)
    (hx' : TidiesAt trims x' y' c) :
    TidiesAt trims (if p then x else x') (if p then y else y') c := by
  split
  · exact hx
  · exact hx'

/-- By induction on the octets that are left: the announcement of an element consumes some. -/
theorem many {more more' : Decoder Bool} (hadvances : Advances more) (hadvances' : Advances more')
    (hmore : Forward more) (hmore' : Forward more') (hx : Forward x) (hy : Forward y)
    (hm : ∀ c : Cursor, c.Steady → TidiesAt (fun _ => False) more more' c)
    (he : ∀ c : Cursor, c.Steady → TidiesAt (fun _ => False) x y c) {trims : List α → Prop}
    (n : Nat) : ∀ {c : Cursor}, c.Steady → c.rest.length < n →
    TidiesAt trims (many more x) (many more' y) c := by
  induction n generalizing trims with
  | zero => intro c _ hn; exact absurd hn (Nat.not_lt_zero _)
  | succ n ih =>
    intro c hc hn
    refine congr hc (fun d hd => many_apply hadvances hmore hx hd)
      (fun d hd => many_apply hadvances' hmore' hy hd) ?_
    refine (hm c hc).bind hc fun t d hd hrun => ?_
    cases t with
    | false => exact pure _ d
    | true =>
      have hlt : d.rest.length < c.rest.length := hadvances' c d hc hrun
      refine (he d hd).bind hd fun a e hsteady hrun' => ?_
      have hle : e.rest.length ≤ d.rest.length := hy.length_le_of_run hd hrun'
      exact (ih hsteady (by omega)).bind hsteady fun _ d _ _ => pure _ d

end TidiesAt

end Decoder

end ImapRequest
