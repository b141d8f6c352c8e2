import Aim.Uri.Access

/-!
# Uri — grants and source users

A grant is of a URI in one source user, and `check` asks for a URI in one.  A grant of that very
URI is looked up with its user.  A prefix above it is not: `check` compares schemes, authorities and
paths only, so a prefix grant of another user's content counts as well.

* `check_of_own_user`: when no prefix grant of another user lies above the URI, only the grants of
  the URI's user matter.
* `prefix_grant_crosses_users`: when one does, it opens the same path of every user.
-/

namespace UriGrants

namespace Grants

variable {g g' : Grants} {uid : ℤ} {uri : GrantUri}

/-- The grants of a uid for the content of one user. -/
def ofUser (g : Grants) (user uid : ℤ) : List UriPermission :=
  (g.perms uid).filter fun p => p.uri.sourceUser = user

/-- No prefix grant of `uid` for another user's content has the path of `uri` below it. -/
def OwnPrefixes (g : Grants) (uid : ℤ) (uri : GrantUri) : Prop :=
  ∀ p ∈ g.perms uid, p.uri.prefixed = true → uri.uri.isPathPrefixMatch p.uri.uri = true →
    p.uri.sourceUser = uri.sourceUser

/-- The grant of a URI is one of its user's. -/
theorem find_ofUser (g : Grants) (uid : ℤ) (uri : GrantUri) :
    Perms.find (g.ofUser uri.sourceUser uid) uri = g.find uid uri := by
  rw [find, ofUser, Perms.find, List.find?_filter]
  congr 1
  funext p
  rw [Bool.eq_iff_iff]
  simp only [decide_eq_true_eq, GrantUri.same_iff, GrantUri.key, Prod.mk.injEq]
  exact and_iff_right_of_imp fun h => h.2.1

/-- So are the prefix grants that count. -/
theorem any_ofUser (h : g.OwnPrefixes uid uri) (q : UriPermission → Bool) :
    ((g.ofUser uri.sourceUser uid).any fun p =>
        p.uri.prefixed && uri.uri.isPathPrefixMatch p.uri.uri && q p) =
      (g.perms uid).any fun p =>
        p.uri.prefixed && uri.uri.isPathPrefixMatch p.uri.uri && q p := by
  rw [Bool.eq_iff_iff, List.any_eq_true, List.any_eq_true]
  simp only [ofUser, List.mem_filter, decide_eq_true_eq, Bool.and_eq_true]
  constructor
  · rintro ⟨p, ⟨hp, -⟩, hq⟩
    exact ⟨p, hp, hq⟩
  · rintro ⟨p, hp, hq⟩
    exact ⟨p, ⟨hp, h p hp hq.1.1 hq.1.2⟩, hq⟩

end Grants

/-- **Grants of other users do not matter.**  Two tables with the same grants of `uid` for the
content of the URI's user give the same answer, when neither has a prefix grant of another user's
content above the URI. -/
theorem check_of_own_user {g g' : Grants} {uid : ℤ} {uri : GrantUri} {asked : Modes}
    (h : g.ofUser uri.sourceUser uid = g'.ofUser uri.sourceUser uid)
    (hg : g.OwnPrefixes uid uri) (hg' : g'.OwnPrefixes uid uri) :
    g.check uri uid asked = g'.check uri uid asked := by
  by_cases hu : uid = rootUid
  · simp [Grants.check, hu]
  · rw [Grants.check_eq hu, Grants.check_eq hu]
    simp only [← Grants.find_ofUser, ← Grants.any_ofUser hg, ← Grants.any_ofUser hg', h]

/-- A prefix grant of another user's content, of another path. -/
theorem check_of_own_user_of_other_path :
    let mine := Op.grant [] [] 10001 (sampleUri "content://a/b" true) 1 none
    let other := Op.grant [] [] 10001 ⟨10, .parse "content://a/c".toList, true⟩ 1 none
    (History.run step ∅ [mine, other]).check (sampleUri "content://a/b/d" false) 10001 1 =
      (History.run step ∅ [mine]).check (sampleUri "content://a/b/d" false) 10001 1 :=
  check_of_own_user (by decide +kernel) (by unfold Grants.OwnPrefixes; decide +kernel)
    (by unfold Grants.OwnPrefixes; decide +kernel)

/-- **A prefix grant crosses users.**  A prefix grant of the content of user 10 alone lets the uid
read below it in user 0, where the table without it does not. -/
theorem prefix_grant_crosses_users :
    let other := Op.grant [] [] 10001 ⟨10, .parse "content://a/b".toList, true⟩ 1 none
    let uri := sampleUri "content://a/b/d" false
    (History.run step ∅ [other]).ofUser uri.sourceUser 10001 = Grants.ofUser ∅ uri.sourceUser 10001 ∧
      (History.run step ∅ [other]).check uri 10001 1 = true ∧
      Grants.check ∅ uri 10001 1 = false := by
  decide +kernel

end UriGrants
