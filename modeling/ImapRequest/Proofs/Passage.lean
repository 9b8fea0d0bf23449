import ImapRequest.Proofs.Locality

/-!
# Behind what was read

Behind the octets that a run has read it goes on as some other decoder, whatever stands there.  What
is said about a place within a request, for all that may be sent from there on, is said about the
decoder that the request goes on as.

* `Decoder.GoesOn` : behind some octets a run goes on as a decoder;
* `Decoder.GoesOn.bind`, `Decoder.GoesOn.after` : a place within the first part of a sequence, and
  one within the second.
-/

namespace ImapRequest

namespace Decoder

variable {α β : Type}

/-- Behind the octets `w`, which lead from `c` to `d`, the run goes on as `y`. -/
structure GoesOn (x : Decoder α) (c : Cursor) (w : List UInt8) (y : Decoder α) (d : Cursor) :
    Prop where
  reaches : c.Reaches w d
  run_eq : ∀ s, x (c.withRest (w ++ s)) = y (d.withRest s)

namespace GoesOn

variable {x y z' : Decoder α} {f : α → Decoder β} {z : Decoder β} {c d e : Cursor} {a : α}
  {v w : List UInt8}

theorem refl (x : Decoder α) (c : Cursor) : GoesOn x c [] x c := ⟨.refl c, fun _ => rfl⟩

theorem bind (h : GoesOn x c w y d) (f : α → Decoder β) :
    GoesOn (x >>= f) c w (y >>= f) d where
  reaches := h.reaches
  run_eq s := by rw [bind_apply, bind_apply, h.run_eq]

theorem congr (hc : c.Steady) (h : ∀ d : Cursor, d.Steady → x d = z' d)
    (hz : GoesOn z' c w y d) : GoesOn x c w y d where
  reaches := hz.reaches
  run_eq s := by rw [h _ (hc.withRest _), hz.run_eq]

theorem attempt (h : GoesOn x c w y d) : GoesOn (attempt x) c w (attempt y) d where
  reaches := h.reaches
  run_eq s := by rw [Decoder.attempt, Decoder.attempt, h.run_eq]

/-- The first part of a sequence was read, and looked at most at the front of what the second part
has read. -/
theorem after (hx : LocalAt x c) (hv : c.Reaches v d) (hrun : x c = (.ok a, d))
    (h : GoesOn (f a) d w z e) (hne : w ≠ []) : GoesOn (x >>= f) c (v ++ w) z e := by
  obtain ⟨v', hv', -, hsame⟩ := hx
  rw [hrun] at hv' hsame
  obtain rfl : v' = v := List.append_cancel_right (hv'.rest_eq.symm.trans hv.rest_eq)
  refine ⟨hv.trans h.reaches, fun s => ?_⟩
  have hhead : (w ++ s).head? = d.rest.head? := by
    obtain ⟨b, u, rfl⟩ := List.exists_cons_of_ne_nil hne
    rw [h.reaches.rest_eq]
    rfl
  rw [List.append_assoc, bind_of_ok (hsame (fun _ => by simp) _ (Or.inl hhead))]
  exact h.run_eq s

/-- A first part that is decided by what it consumes alone. -/
theorem afterAll (hv : c.Reaches v d)
    (hrun : ∀ s, x (c.withRest (v ++ s)) = (.ok a, d.withRest s)) (h : GoesOn (f a) d w z e) :
    GoesOn (x >>= f) c (v ++ w) z e where
  reaches := hv.trans h.reaches
  run_eq s := by
    rw [List.append_assoc, bind_of_ok (hrun _)]
    exact h.run_eq s

end GoesOn

end Decoder

end ImapRequest
