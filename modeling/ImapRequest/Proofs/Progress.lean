import ImapRequest.Proofs.Locality
import ImapRequest.Proofs.Repetition
import ImapRequest.Session

/-!
# Progress

Every request that is answered took at least one octet: a command has a tag, and of a malformed
request a line is discarded, even where its first octet was rejected and left where it was.  Where
there is no octet nothing is answered, since already the tag fails.  So a session has at most as
many steps as there are octets, and the octets that it took are divided among its answers.

* `Request.decode_advances` : a request that is answered took at least one octet;
* `Session.Course`, `Session.course_iff` : a session is a loop without a bound;
* `Session.Course.length_le` : it makes at most as many steps as there are octets;
* `Session.Answers`, `Session.Course.existsUnique_answers` : each octet belongs to one answer;
* `Session.makes_progress` : all of this, for every source and whatever the client sends.
-/

namespace ImapRequest

namespace Decoder

/-- Discarding takes an octet wherever there is one. -/
theorem discardLine_advances {c : Cursor} (hc : c.Steady) (hrest : c.rest ≠ []) :
    ∃ w, w ≠ [] ∧ c.Reaches w (discardLine c).2 := by
  obtain ⟨b, s, hcons⟩ := List.exists_cons_of_ne_nil hrest
  have hfront : c.Reaches [b] (c.advance 1) := .front (w := [b]) hcons
  change ∃ w, w ≠ [] ∧ c.Reaches w (discardFrom .none c).2
  by_cases hb : b = Octet.lf
  · subst hb
    rw [discardFrom_of_lf hc hcons rfl]
    exact ⟨_, by simp, hfront⟩
  · have hforward (a : Announcement) : Forward (discardFrom a) :=
      Forward.bound.bind fun _ => .discardUpTo _ a
    obtain ⟨w, hw⟩ := hforward (Announcement.none.advance b) (c.advance 1) (hc.advance 1)
    rw [discardFrom_of_ne hc hcons hb]
    exact ⟨b :: w, by simp, hfront.trans hw⟩

end Decoder

namespace Request

open Decoder

variable {ctx : Context} {c d e : Cursor}

/-- Decoding a request moves forward on every source, if it moves at all. -/
theorem decode_reaches {answer : Except Failure Request} (h : decode ctx c = (answer, e)) :
    ∃ w, c.Reaches w e := by
  by_cases hc : c.Steady
  · obtain ⟨w, hw⟩ := decode_forward ctx c hc
    rw [h] at hw
    exact ⟨w, hw⟩
  · obtain ⟨io, hrun⟩ := decode_of_not_steady ctx hc
    obtain ⟨-, rfl⟩ := Prod.mk.inj (hrun.symm.trans h)
    exact ⟨[], .refl c⟩

/-- A request is answered only where the source shows an octet. -/
theorem isConsumed_of_decode {request : Request} (h : decode ctx c = (.ok request, e)) :
    c.isConsumed = false := by
  refine Bool.eq_false_iff.2 fun hconsumed => ?_
  obtain ⟨io, hrun⟩ := decode_of_isConsumed ctx hconsumed
  simp [hrun] at h

/-- A command has a tag. -/
theorem read_advances {command : Command} (hc : c.Steady) (h : read ctx c = (.ok command, e)) :
    ∃ w, w ≠ [] ∧ c.Reaches w e := by
  rw [read_eq] at h
  obtain ⟨tag, d, htag, h⟩ := exists_of_bind h
  obtain ⟨w, hrun, -⟩ := exists_of_map htag
  obtain ⟨s, hrest, hne, -, -, rfl⟩ := rest_of_takeWhile1 hc hrun
  have hw : c.Reaches w (c.advance w.length) := .front hrest
  obtain ⟨v, hv⟩ := decodeCommand_forward ctx tag _ (hw.steady hc)
  rw [h] at hv
  exact ⟨w ++ v, by simp [hne], hw.trans hv⟩

/-- Where a request was rejected, an octet was taken before, or the next one is discarded. -/
theorem discard_advances {tag : Option Tag} {error : DecodingError} {request : Request}
    {v : List UInt8} (hc : c.Steady) (hrest : c.rest ≠ []) (hv : c.Reaches v d)
    (h : discard tag error d = (.ok request, e)) : ∃ w, w ≠ [] ∧ c.Reaches w e := by
  obtain ⟨u, e', hline, h⟩ := exists_of_bind h
  obtain rfl : e' = e := congrArg Prod.snd h
  have he : (discardLine d).2 = e' := by rw [hline]
  by_cases hnil : v = []
  · subst hnil
    have hrest' : d.rest ≠ [] := by rwa [hv.rest_eq] at hrest
    obtain ⟨w, hne, hw⟩ := discardLine_advances (hv.steady hc) hrest'
    exact ⟨w, hne, hv.trans (he ▸ hw)⟩
  · obtain ⟨w, hw⟩ := Composed.discardLine.forward d (hv.steady hc)
    exact ⟨v ++ w, by simp [hnil], hv.trans (he ▸ hw)⟩

/-- A request that is answered, as a command or as malformed, took at least one octet. -/
theorem decode_advances {request : Request} (h : decode ctx c = (.ok request, e)) :
    ∃ w, w ≠ [] ∧ c.Reaches w e := by
  obtain ⟨hc, hrest⟩ := Cursor.steady_and_rest_ne_nil (isConsumed_of_decode h)
  obtain ⟨v, hv⟩ := read_forward ctx c hc
  rcases hread : read ctx c with ⟨f | command, d⟩ <;> rw [hread] at hv
  · cases f with
    | rejected error => exact discard_advances hc hrest hv ((decode_of_rejected hread).symm.trans h)
    | io io => simp [decode_of_fatal hread rfl] at h
    | literalTooLarge length limit => simp [decode_of_fatal hread rfl] at h
  · rw [decode_of_ok hread] at h
    obtain rfl : d = e := congrArg Prod.snd h
    exact read_advances hc hread

end Request

namespace Session

variable {ctx : Context} {c : Cursor} {ss : List Step}

/-! ### Steps without a bound -/

/-- The steps from a cursor on: requests are decoded until one fails or nothing more is there. -/
inductive Course (ctx : Context) : Cursor → List Step → Prop where
  | failed {c e : Cursor} {f : Failure} (run : Request.decode ctx c = (.error f, e)) :
    Course ctx c [{ answer := .error f, cursor := e }]
  | ended {c e : Cursor} {request : Request} (run : Request.decode ctx c = (.ok request, e))
    (consumed : e.isConsumed = true) : Course ctx c [{ answer := .ok request, cursor := e }]
  | next {c e : Cursor} {request : Request} {ss : List Step}
    (run : Request.decode ctx c = (.ok request, e)) (more : e.isConsumed = false)
    (further : Course ctx e ss) : Course ctx c ({ answer := .ok request, cursor := e } :: ss)

theorem Course.unique (h : Course ctx c ss) : ∀ {ts : List Step}, Course ctx c ts → ss = ts := by
  induction h with
  | failed run =>
    intro ts ht
    cases ht <;> simp_all
  | ended run consumed =>
    intro ts ht
    cases ht <;> simp_all
  | next run more _ ih =>
    intro ts ht
    cases ht with
    | failed run' => simp [run] at run'
    | ended run' consumed =>
      obtain ⟨rfl, rfl⟩ := by simpa [run] using run'
      simp [more] at consumed
    | next run' _ further =>
      obtain ⟨rfl, rfl⟩ := by simpa [run] using run'
      rw [ih further]

/-- By induction on the bound: behind an answer fewer octets are left. -/
theorem course_stepsUpTo (ctx : Context) (limit : Nat) : ∀ {c : Cursor}, c.rest.length < limit →
    Course ctx c (stepsUpTo ctx limit c) := by
  induction limit with
  | zero => intro c hlimit; exact absurd hlimit (Nat.not_lt_zero _)
  | succ limit ih =>
    intro c hlimit
    rcases hrun : Request.decode ctx c with ⟨f | request, e⟩ <;> simp only [stepsUpTo, hrun]
    · exact .failed hrun
    · cases hend : e.isConsumed with
      | true => exact .ended hrun hend
      | false =>
        obtain ⟨w, hne, hw⟩ := Request.decode_advances hrun
        refine .next hrun hend (ih ?_)
        have hpos : 0 < w.length := List.length_pos_iff.2 hne
        rw [hw.rest_eq, List.length_append] at hlimit
        omega

/-- A session is the loop without a bound. -/
theorem course_iff : Course ctx c ss ↔ ss = steps ctx c := by
  have hsteps : Course ctx c (steps ctx c) := course_stepsUpTo ctx _ (Nat.lt_succ_self _)
  exact ⟨fun h => h.unique hsteps, fun h => h ▸ hsteps⟩

/-! ### The octets of a session -/

theorem Course.ne_nil (h : Course ctx c ss) : ss ≠ [] := by
  cases h <;> simp

/-- There is one step at least, and not more of them than octets. -/
theorem Course.length_le (h : Course ctx c ss) : ss.length ≤ max 1 c.rest.length := by
  induction h with
  | failed _ => exact Nat.le_max_left ..
  | ended _ _ => exact Nat.le_max_left ..
  | @next c e request ss run more further ih =>
    -- An octet was taken, and where the session goes on there is another one.
    obtain ⟨w, hne, hw⟩ := Request.decode_advances run
    have hpos : 0 < w.length := List.length_pos_iff.2 hne
    have hpos' : 0 < e.rest.length :=
      List.length_pos_iff.2 (Cursor.steady_and_rest_ne_nil more).2
    rw [hw.rest_eq, List.length_append, List.length_cons]
    omega

/-- Every step ends behind octets of the input. -/
theorem Course.reaches (h : Course ctx c ss) : ∀ step ∈ ss, ∃ w, c.Reaches w step.cursor := by
  induction h with
  | failed run => simpa using Request.decode_reaches run
  | ended run _ => simpa using Request.decode_reaches run
  | next run _ _ ih =>
    refine List.forall_mem_cons.2 ⟨Request.decode_reaches run, fun step hstep => ?_⟩
    obtain ⟨w, hw⟩ := Request.decode_reaches run
    obtain ⟨v, hv⟩ := ih step hstep
    exact ⟨w ++ v, hw.trans hv⟩

/-- No step moves back. -/
theorem Course.pairwise (h : Course ctx c ss) :
    ss.Pairwise fun s t => s.cursor.position ≤ t.cursor.position := by
  induction h with
  | failed _ => exact List.pairwise_singleton _ _
  | ended _ _ => exact List.pairwise_singleton _ _
  | next _ _ further ih =>
    refine List.pairwise_cons.2 ⟨fun step hstep => ?_, ih⟩
    obtain ⟨w, hw⟩ := further.reaches step hstep
    exact hw.position_le

/-- The step with this index is an answer, and the octet at this position is one of those it
took. -/
def Answers (c : Cursor) (ss : List Step) (index position : Nat) : Prop :=
  ∃ before step request, (c :: ss.map Step.cursor)[index]? = some before ∧
    ss[index]? = some step ∧ step.answer = .ok request ∧
    before.position ≤ position ∧ position < step.cursor.position

section Answers

variable {step : Step} {i p : Nat}

theorem not_answers_nil : ¬ Answers c [] i p := by
  rintro ⟨_, _, _, -, hstep, -⟩
  simp at hstep

theorem answers_zero : Answers c (step :: ss) 0 p ↔
    (∃ request, step.answer = .ok request) ∧ c.position ≤ p ∧ p < step.cursor.position := by
  simp [Answers]

theorem answers_succ : Answers c (step :: ss) (i + 1) p ↔ Answers step.cursor ss i p := by
  simp [Answers]

/-- A session answers no octet in front of it. -/
theorem Course.position_le_of_answers (h : Course ctx c ss) (hp : Answers c ss i p) :
    c.position ≤ p := by
  obtain ⟨before, _, _, hbefore, -, -, hle, -⟩ := hp
  refine Nat.le_trans ?_ hle
  rcases List.mem_cons.1 (List.mem_of_getElem? hbefore) with rfl | hmem
  · exact Nat.le_refl _
  · obtain ⟨step, hstep, rfl⟩ := List.mem_map.1 hmem
    obtain ⟨w, hw⟩ := h.reaches step hstep
    exact hw.position_le

/-- By induction on the steps: an octet belongs to the first answer behind it. -/
theorem Course.existsUnique_answers (h : Course ctx c ss) : ∀ step ∈ ss, ∀ request,
    step.answer = .ok request → ∀ p, c.position ≤ p → p < step.cursor.position →
    ∃! i, Answers c ss i p := by
  induction h with
  | failed run =>
    intro step hstep request hanswer
    obtain rfl := List.mem_singleton.1 hstep
    simp at hanswer
  | ended run consumed =>
    intro step hstep request hanswer p hle hlt
    obtain rfl := List.mem_singleton.1 hstep
    refine ⟨0, answers_zero.2 ⟨⟨_, rfl⟩, hle, hlt⟩, fun i hi => ?_⟩
    cases i with
    | zero => rfl
    | succ i => exact absurd (answers_succ.1 hi) not_answers_nil
  | @next c e own ss run more further ih =>
    intro step hstep request hanswer p hle hlt
    by_cases hp : p < e.position
    · refine ⟨0, answers_zero.2 ⟨⟨_, rfl⟩, hle, hp⟩, fun i hi => ?_⟩
      cases i with
      | zero => rfl
      | succ i =>
        exact absurd (further.position_le_of_answers (answers_succ.1 hi)) (Nat.not_le.2 hp)
    · rcases List.mem_cons.1 hstep with rfl | hstep
      · exact absurd hlt hp
      obtain ⟨i, hi, hunique⟩ := ih step hstep request hanswer p (Nat.not_lt.1 hp) hlt
      refine ⟨i + 1, answers_succ.2 hi, fun j hj => ?_⟩
      cases j with
      | zero => exact absurd (answers_zero.1 hj).2.2 hp
      | succ j => rw [hunique j (answers_succ.1 hj)]

end Answers

/-- How a session goes forward from a cursor. -/
structure GoesForward (ctx : Context) (c : Cursor) : Prop where
  /-- A request moves among the octets that are left. -/
  reaches : ∀ answer e, Request.decode ctx c = (answer, e) → ∃ w, c.Reaches w e
  /-- A request that is answered took at least one octet. -/
  advances : ∀ request e, Request.decode ctx c = (.ok request, e) → ∃ w, w ≠ [] ∧ c.Reaches w e
  /-- Without a bound the loop over requests takes the same steps. -/
  course_iff : ∀ ss, Course ctx c ss ↔ ss = steps ctx c
  ne_nil : steps ctx c ≠ []
  length_le : (steps ctx c).length ≤ max 1 c.rest.length
  steps_reach : ∀ step ∈ steps ctx c, ∃ w, c.Reaches w step.cursor
  /-- No step moves back. -/
  pairwise : (steps ctx c).Pairwise fun s t => s.cursor.position ≤ t.cursor.position
  /-- An octet that was taken up to some answer belongs to exactly one answer. -/
  existsUnique_answers : ∀ step ∈ steps ctx c, ∀ request, step.answer = .ok request →
    ∀ p, c.position ≤ p → p < step.cursor.position → ∃! i, Answers c (steps ctx c) i p
  /-- All repetitions on the way end by themselves. -/
  ends : Request.Ends ctx

/-- **Progress.**  From every cursor a request moves forward among the octets that are left, and one
that is answered took at least one.  So the loop over requests ends, after at most as many steps as
there are octets, or after one. -/
theorem makes_progress (ctx : Context) (c : Cursor) : GoesForward ctx c :=
  have h : Course ctx c (steps ctx c) := course_iff.2 rfl
  { reaches := fun _ _ => Request.decode_reaches
    advances := fun _ _ => Request.decode_advances
    course_iff := fun _ => course_iff
    ne_nil := h.ne_nil
    length_le := h.length_le
    steps_reach := h.reaches
    pairwise := h.pairwise
    existsUnique_answers := h.existsUnique_answers
    ends := Request.ends ctx }

/-- A line that is rejected for its first octet, on a stream that shows one octet at a time: all of
the line belongs to that answer. -/
theorem makes_progress_rejected :
    (steps {} (.ofStream (Octet.ofText " \r\nA NOOP\r\n") 1 none none)).map (·.cursor.position) =
        [3, 11] ∧
      (∃ w, w ≠ [] ∧ (Cursor.ofStream (Octet.ofText " \r\nA NOOP\r\n") 1 none none).Reaches w
        ⟨Octet.ofText "A NOOP\r\n", 3, [], .stream { window := 1 }⟩) ∧
      ∃! i, Answers (.ofStream (Octet.ofText " \r\nA NOOP\r\n") 1 none none)
        (steps {} (.ofStream (Octet.ofText " \r\nA NOOP\r\n") 1 none none)) i 2 := by
  have hrun : Request.decode {} (.ofStream (Octet.ofText " \r\nA NOOP\r\n") 1 none none) =
      (.ok (.malformed none (.unexpected Octet.sp "tag")),
        ⟨Octet.ofText "A NOOP\r\n", 3, [], .stream { window := 1 }⟩) := by cbv
  have hstep : ⟨.ok (.malformed none (.unexpected Octet.sp "tag")),
      ⟨Octet.ofText "A NOOP\r\n", 3, [], .stream { window := 1 }⟩⟩ ∈
      steps {} (.ofStream (Octet.ofText " \r\nA NOOP\r\n") 1 none none) := by
    simp only [steps, stepsUpTo, hrun]
    split <;> exact List.mem_cons_self
  have h := makes_progress {} (.ofStream (Octet.ofText " \r\nA NOOP\r\n") 1 none none)
  exact ⟨by cbv, h.advances _ _ hrun,
    h.existsUnique_answers _ hstep _ rfl 2 (Nat.zero_le _) (by decide)⟩

end Session

end ImapRequest
