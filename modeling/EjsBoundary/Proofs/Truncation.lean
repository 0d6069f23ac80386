import EjsBoundary.Proofs.RedirectChain

/-!
# `EjsBoundary.Proofs.Truncation`: replies that break off

`https_request` reads until `SSL_read` gives nothing more, and does not ask whether the connection
was closed in order or broke. `reply_take` says what comes of a reply that is cut off after any
number of bytes: cut inside the head it is an error, and cut anywhere behind it passes for a whole
reply, with the same status and headers, the same redirect, and a first part of the body.

The work is in the chunked bodies. `turn_take` compares a turn of `decode_chunked` on the body with
one on its first bytes: they take the same piece, and if they do not go on at the same place, then
because only the line end behind the piece was cut.
-/

set_option autoImplicit false

namespace EjsBoundary.Proofs

open EjsBoundary.Lib
open EjsBoundary.Model

/-! ### One turn on the first bytes -/

section
variable {trim : Bytes → Bytes} {body : Bytes} {n : Nat}

/-- A size line of the cut body is one of the body. -/
theorem sizeLine_of_take {i e len : Nat} (h : sizeLine trim (body.take n) i = some (e, len)) :
    sizeLine trim body i = some (e, len) := by
  have hne : lit "\r\n" ≠ [] := by decide
  obtain ⟨e', he, hlen⟩ := Option.bind_eq_some_iff.mp h
  obtain ⟨len', hread, heq⟩ := Option.map_eq_some_iff.mp hlen
  obtain ⟨rfl, rfl⟩ := Prod.mk.inj heq
  obtain ⟨hfind, hle⟩ := findText_of_take hne he
  obtain ⟨hie, -⟩ := prefix_of_findText he
  rw [take_drop_take (by omega)] at hread
  refine Option.bind_eq_some_iff.mpr ⟨e', hfind, Option.map_eq_some_iff.mpr ⟨len', hread, rfl⟩⟩

/-- Nothing names a size where fewer than two bytes are left. -/
theorem sizeLine_eq_none {i : Nat} (h : body.length < i + 2) : sizeLine trim body i = none := by
  cases hline : sizeLine trim body i with
  | none => rfl
  | some p =>
    obtain ⟨hie, hle⟩ := sizeLine_bounds hline
    omega

/-- A turn on the first bytes takes the piece of the turn on the whole, and goes on at the same
place, or at one where no size line is left. -/
theorem turn_take {i j : Nat} {p : Nat × Nat} (h : chunkTurn trim (body.take n) i = some (p, j))
    (hwrap : p.1 + p.2 < 2 ^ 64) :
    piece (body.take n) p = piece body p ∧ ∃ j', chunkTurn trim body i = some (p, j') ∧
      (j' = j ∨ sizeLine trim (body.take n) j = none) := by
  obtain ⟨e, hi, hline, hstart, hpos, hle, hj⟩ := chunkTurn_eq_some h
  rw [Nat.mod_eq_of_lt hwrap] at hle hj
  rw [List.length_take] at hi hle
  have hturn : chunkTurn trim body i = some (p, skipLineEnd body (p.1 + p.2)) := by
    -- The data that lies within the first bytes lies within the body.
    have hlen : ¬ (p.2 = 0 ∨ body.length < (e + 2 + p.2) % 2 ^ 64) := by
      rw [← hstart, Nat.mod_eq_of_lt hwrap]
      omega
    rw [chunkTurn, if_pos (by omega), sizeLine_of_take hline, Option.bind_some, if_neg hlen,
      ← hstart, Nat.mod_eq_of_lt hwrap]
  refine ⟨take_drop_take (by omega), _, hturn, ?_⟩
  by_cases hcut : p.1 + p.2 + 2 ≤ (body.take n).length
  · -- The line end is whole, so both look at the same two bytes.
    rw [List.length_take] at hcut
    refine Or.inl ?_
    rw [hj, skipLineEnd, skipLineEnd, take_drop_take (by omega), List.length_take]
    have hiff : p.1 + p.2 + 2 ≤ min n body.length ↔ p.1 + p.2 + 2 ≤ body.length := by omega
    simp only [hiff]
  -- Fewer than two bytes are left, and a size line takes two for its line end alone.
  · refine Or.inr (sizeLine_eq_none ?_)
    rw [hj, skipLineEnd, if_neg fun hskip => hcut hskip.1]
    omega

/-! ### The loop on the first bytes -/

/-- What the loop comes to on the first bytes it comes to on the whole, or there is no size line
left. -/
theorem reached_take (hno : NoWrap trim body) {i : Nat}
    (h : Reached (chunkTurn trim (body.take n)) 0 i) :
    Reached (chunkTurn trim body) 0 i ∨ sizeLine trim (body.take n) i = none := by
  -- Once there is no size line left there is no further turn.
  induction h with
  | refl => exact Or.inl Relation.ReflTransGen.refl
  | @tail b c _ hstep ih =>
    obtain ⟨p, hturn⟩ := hstep
    obtain ⟨e, hb, hline, hstart, -⟩ := chunkTurn_eq_some hturn
    rcases ih with hreach | hnone
    · rw [List.length_take] at hb
      have hwrap := hno b e p.2 hreach (by omega) (sizeLine_of_take hline)
      rw [← hstart] at hwrap
      obtain ⟨-, j', hturn', hnext⟩ := turn_take hturn hwrap
      rcases hnext with rfl | hnone
      · exact Or.inl (hreach.tail ⟨p, hturn'⟩)
      · exact Or.inr hnone
    · rw [hline] at hnone
      cases hnone

/-- The first bytes of a body without a size that wraps have none either. -/
theorem NoWrap.take (hno : NoWrap trim body) : NoWrap trim (body.take n) := by
  intro i e len hreach hi hline
  rw [List.length_take] at hi
  rcases reached_take hno hreach with hreach | hnone
  · exact hno i e len hreach (by omega) (sizeLine_of_take hline)
  · rw [hline] at hnone
    cases hnone

/-- The turns on the first bytes take a first part of what the turns on the whole take. -/
theorem trail_take {i : Nat} {l l' : List (Nat × (Nat × Nat))}
    (h : Trail (chunkTurn trim (body.take n)) i l) (h' : Trail (chunkTurn trim body) i l')
    (hwrap : ∀ t p, (t, p) ∈ l → p.1 + p.2 < 2 ^ 64) :
    (l.map Prod.snd).flatMap (piece (body.take n)) <+: (l'.map Prod.snd).flatMap (piece body) := by
  -- Both loops take the same pieces as long as the shorter one goes on.
  induction h generalizing l' with
  | stop _ => exact List.nil_prefix
  | @go i j p l hturn hrest ih =>
    obtain ⟨hpiece, j', hturn', hnext⟩ := turn_take hturn (hwrap i p List.mem_cons_self)
    cases h' with
    | stop hstop =>
      rw [hturn'] at hstop
      cases hstop
    | @go _ k q l' hgo hrest' =>
      rw [hturn'] at hgo
      obtain ⟨rfl, rfl⟩ := Prod.mk.inj (Option.some.inj hgo)
      rw [List.map_cons, List.map_cons, List.flatMap_cons, List.flatMap_cons, hpiece,
        List.prefix_append_right_inj]
      rcases hnext with rfl | hnone
      · exact ih hrest' fun t q hq => hwrap t q (List.mem_cons_of_mem _ hq)
      · -- The loop on the first bytes stops here.
        have hstop : chunkTurn trim (body.take n) j = none := by
          rw [chunkTurn, hnone]
          split <;> rfl
        rw [hrest.unique (.stop hstop)]
        exact List.nil_prefix

/-- The first bytes of a body are decoded to a first part of what the body is decoded to. -/
theorem decodeChunked_take_prefix (hno : NoWrap trim body) (n : Nat) :
    ∃ whole part, decodeChunked trim body = some whole ∧
      decodeChunked trim (body.take n) = some part ∧ part <+: whole := by
  obtain ⟨l', hl'⟩ := hno.exists_trail
  have hcut : NoWrap trim (body.take n) := hno.take
  obtain ⟨l, hl⟩ := hcut.exists_trail
  have hwrap : ∀ t p, (t, p) ∈ l → p.1 + p.2 < 2 ^ 64 := by
    intro t p hmem
    obtain ⟨hreach, j, hturn⟩ := hl.reached hmem
    exact hcut.turn_lt hreach hturn
  exact ⟨_, _, decodeChunked_eq_some_iff.mpr ⟨l', hl', rfl⟩,
    decodeChunked_eq_some_iff.mpr ⟨l, hl, rfl⟩, trail_take hl hl' hwrap⟩

end

/-! ### Replies -/

section
variable {trim : Bytes → Bytes} {resp : Bytes} {pos : Nat}
  (hfind : findText (lit "\r\n\r\n") resp 0 = some pos)

/-- The head passes for that of a chunked body. -/
def PassesForChunked (resp : Bytes) (pos : Nat) : Prop :=
  (findText chunkedText ((resp.take pos).map toLower) 0).isSome = true

instance (resp : Bytes) (pos : Nat) : Decidable (PassesForChunked resp pos) :=
  inferInstanceAs (Decidable (_ = true))

/-- The response a head is read as, with a body. -/
def headResponse (resp : Bytes) (pos : Nat) (body : Bytes) : HttpResponse :=
  { status := readStatus (resp.take pos), headers := resp.take pos, body }

include hfind in
/-- Reading a reply, by what stands in the head. -/
theorem readHttpResponse_eq :
    readHttpResponse trim resp =
      if PassesForChunked resp pos then
        (decodeChunked trim (resp.drop (pos + 4))).map fun body => .ok (headResponse resp pos body)
      else some (.ok (headResponse resp pos (resp.drop (pos + 4)))) := by
  unfold readHttpResponse
  rw [hfind]
  rfl

include hfind in
/-- A reply that is cut off in its head is no reply. -/
theorem readHttpResponse_take_head {n : Nat} (hn : n < pos + 4) :
    readHttpResponse trim (resp.take n) = some (.error (lit "bad HTTP response")) := by
  unfold readHttpResponse
  cases hcut : findText (lit "\r\n\r\n") (resp.take n) 0 with
  | none => rfl
  | some e =>
    obtain ⟨hwhole, hle⟩ := findText_of_take (by decide) hcut
    rw [hfind] at hwhole
    cases hwhole
    have hlen : (lit "\r\n\r\n").length = 4 := rfl
    omega

include hfind in
/-- A reply that is cut off behind its head is read with the same head and a first part of the
body. -/
theorem readHttpResponse_take_body {n : Nat} (hn : pos + 4 ≤ n)
    (hno : PassesForChunked resp pos → NoWrap trim (resp.drop (pos + 4))) :
    ∃ whole part, readHttpResponse trim resp = some (.ok (headResponse resp pos whole)) ∧
      readHttpResponse trim (resp.take n) = some (.ok (headResponse resp pos part)) ∧
      part <+: whole := by
  have hcut : findText (lit "\r\n\r\n") (resp.take n) 0 = some pos :=
    findText_take (by decide) hfind hn
  have hhead : (resp.take n).take pos = resp.take pos := by
    rw [List.take_take, Nat.min_eq_left (by omega)]
  have hbody : (resp.take n).drop (pos + 4) = (resp.drop (pos + 4)).take (n - (pos + 4)) :=
    List.drop_take
  have hresponse : headResponse (resp.take n) pos = headResponse resp pos := by
    funext body
    rw [headResponse, headResponse, hhead]
  -- The head is the same, and so is what it says about the body.
  have hpasses : PassesForChunked (resp.take n) pos ↔ PassesForChunked resp pos := by
    rw [PassesForChunked, PassesForChunked, hhead]
  rw [readHttpResponse_eq hfind, readHttpResponse_eq hcut, hbody, hresponse]
  by_cases hchunked : PassesForChunked resp pos
  · rw [if_pos hchunked, if_pos (hpasses.mpr hchunked)]
    obtain ⟨whole, part, hwhole, hpart, hprefix⟩ :=
      decodeChunked_take_prefix (hno hchunked) (n - (pos + 4))
    exact ⟨whole, part, by rw [hwhole]; rfl, by rw [hpart]; rfl, hprefix⟩
  · rw [if_neg hchunked, if_neg fun h => hchunked (hpasses.mp h)]
    exact ⟨_, _, rfl, rfl, List.take_prefix _ _⟩

/-- A head decides whether a call goes on, and where: the body has no part in it. -/
theorem afterOutcome_head (trim : Bytes → Bytes) (host resp : Bytes) (pos : Nat) :
    (∃ next, ∀ resp' body, readHttpResponse trim resp' = some (.ok (headResponse resp pos body)) →
      afterOutcome trim host (.reply resp') = .inr next) ∨
    ∀ resp' body, readHttpResponse trim resp' = some (.ok (headResponse resp pos body)) →
      afterOutcome trim host (.reply resp') = .inl (some (.ok (headResponse resp pos body))) := by
  have hloc : ∀ body, locationOf trim (headResponse resp pos body) =
      locationOf trim (headResponse resp pos []) := fun _ => rfl
  cases hlocation : locationOf trim (headResponse resp pos []) with
  | none =>
    refine Or.inr fun resp' body hread => ?_
    simp only [afterOutcome, hread, hloc, hlocation]
  | some loc =>
    cases htarget : redirectTarget host loc with
    | none =>
      refine Or.inr fun resp' body hread => ?_
      simp only [afterOutcome, hread, hloc, hlocation, htarget]
    | some target =>
      refine Or.inl ⟨(loc, target.1, target.2), fun resp' body hread => ?_⟩
      simp only [afterOutcome, hread, hloc, hlocation, htarget]

include hfind in
/-- A reply that is cut off is an error exactly when the cut is in its head. Cut anywhere else, it
leads to the same redirect, or to the same response with a first part of its body. -/
theorem reply_take (host : Bytes)
    (hno : PassesForChunked resp pos → NoWrap trim (resp.drop (pos + 4))) (n : Nat) :
    (n < pos + 4 → afterOutcome trim host (.reply (resp.take n)) =
      .inl (some (.error (lit "bad HTTP response")))) ∧
    (pos + 4 ≤ n →
      (∃ next, afterOutcome trim host (.reply resp) = .inr next ∧
        afterOutcome trim host (.reply (resp.take n)) = .inr next) ∨
      ∃ r part, afterOutcome trim host (.reply resp) = .inl (some (.ok r)) ∧
        afterOutcome trim host (.reply (resp.take n)) = .inl (some (.ok { r with body := part })) ∧
        part <+: r.body) := by
  constructor
  · intro hn
    simp only [afterOutcome, readHttpResponse_take_head hfind hn]
  · intro hn
    obtain ⟨whole, part, hread, hcut, hprefix⟩ := readHttpResponse_take_body hfind hn hno
    rcases afterOutcome_head trim host resp pos with ⟨next, hnext⟩ | hends
    · exact Or.inl ⟨next, hnext _ _ hread, hnext _ _ hcut⟩
    · exact Or.inr ⟨headResponse resp pos whole, part, hends _ _ hread, hends _ _ hcut, hprefix⟩

end

/-- A reply with the payload `abcd` in two chunks. -/
def twoChunks : Bytes :=
  lit "HTTP/1.1 200 OK\r\nTransfer-Encoding: chunked\r\n\r\n2\r\nab\r\n2\r\ncd\r\n0\r\n\r\n"

/-- Broken off in its second chunk, it passes for a whole one. -/
theorem reply_take_twoChunks : ∃ part, part <+: lit "abcd" ∧
    afterOutcome strip (lit "h") (.reply (twoChunks.take 57)) =
      .inl (some (.ok ⟨200, lit "HTTP/1.1 200 OK\r\nTransfer-Encoding: chunked", part⟩)) := by
  have hfind : findText (lit "\r\n\r\n") twoChunks 0 = some 43 := by decide
  have hsizes : ∀ i < (twoChunks.drop 47).length, ∀ p ∈ sizeLine strip (twoChunks.drop 47) i,
      p.1 + 2 + p.2 < 2 ^ 64 := by decide
  have hno : NoWrap strip (twoChunks.drop 47) :=
    fun i e len _ hi hline => hsizes i hi (e, len) hline
  have hwhole : afterOutcome strip (lit "h") (.reply twoChunks) =
      .inl (some (.ok ⟨200, lit "HTTP/1.1 200 OK\r\nTransfer-Encoding: chunked", lit "abcd"⟩)) := by
    decide
  rcases (reply_take hfind (lit "h") (fun _ => hno) 57).2 (by decide) with ⟨next, hnext, -⟩ |
    ⟨r, part, hr, hpart, hprefix⟩
  · rw [hwhole] at hnext
    cases hnext
  · rw [hwhole] at hr
    cases hr
    exact ⟨part, hprefix, hpart⟩

end EjsBoundary.Proofs
