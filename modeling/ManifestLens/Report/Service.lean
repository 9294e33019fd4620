import ManifestLens.Config.Basic
import ManifestLens.Index.View
import ManifestLens.Json.Access
import ManifestLens.Service.Call

/-!
# The service for other tools

The views of a package, and configurations, statistics, settings and requests, as JSON.
-/

namespace ManifestLens

open Json (ofChars ofInt ofNat ofOption ofTexts)

/-! ### Packages -/

/-- The metadata view, with the sets in it sorted. -/
def PackageOverview.toJson (metadata : PackageOverview) : Json :=
  .object [
    ("name", metadata.name), ("versions", ofTexts metadata.versions), ("latest", metadata.latest),
    ("summary", metadata.summary), ("classifiers", .array metadata.classifiers),
    ("requires_python", metadata.requiresPython),
    ("yanked", ofTexts (Config.sortedTexts metadata.yanked)),
    ("pre", ofTexts (Config.sortedTexts metadata.preReleases)),
    ("stable", ofTexts metadata.stableVersions)]

def Release.toJson (release : Release) : Json :=
  .object [
    ("version", .string release.version),
    ("released", ofOption (fun date => .string date.text) release.released),
    ("pre_release", .bool release.isPreRelease), ("yanked", .bool release.isYanked),
    ("yanked_reason", release.yankedReason), ("requires_python", release.requiresPython)]

/-- The descriptive fields of a package. -/
def PackageProfile.toJson (info : PackageProfile) : Json :=
  .object [
    ("name", info.name), ("version", info.version), ("summary", info.summary),
    ("requires_python", info.requiresPython), ("license", info.license),
    ("author", info.author), ("maintainer", info.maintainer), ("home_page", info.homePage),
    ("docs_url", info.docsUrl), ("package_url", info.packageUrl),
    ("project_urls", .object (info.projectUrls.map fun (label, url) => (label, .string url))),
    ("classifiers", .array info.classifiers)]

/-! ### The service -/

def CacheStatistics.toJson (statistics : CacheStatistics) : Json :=
  .object [
    ("total_entries", ofNat statistics.totalEntries), ("max_entries", ofNat statistics.capacity),
    ("expired_count", ofNat statistics.expiredCount),
    ("average_age_seconds", .number (.float statistics.averageAge)),
    ("total_access_count", ofNat statistics.totalAccessCount)]

def ServiceStatistics.toJson (statistics : ServiceStatistics) : Json :=
  .object [
    ("cache", statistics.cache.toJson), ("base_url", ofChars statistics.baseUrl),
    ("timeout", .number statistics.timeout), ("retry_attempts", ofInt statistics.attempts),
    ("in_flight", ofNat statistics.inFlight)]

def Service.settings (service : Service) : Json :=
  let client := service.client
  .object [
    ("base_url", ofChars client.baseUrl), ("timeout", .number client.timeout),
    ("retry_attempts", ofInt client.attempts), ("retry_delay", .number client.retryDelay),
    ("pre", .bool service.includePre), ("ttl", .number service.cache.ttl),
    ("max_entries", ofNat service.cache.capacity), ("sweeper", .bool service.sweeper.isSome)]

/-- The settings of a client, and whether it has a connection. -/
def IndexClient.settings (client : IndexClient) : Json :=
  .object [
    ("base_url", ofChars client.baseUrl), ("timeout", .number client.timeout),
    ("retry_attempts", ofInt client.attempts), ("retry_delay", .number client.retryDelay),
    ("user_agent", .string client.userAgent), ("max_retry_after", .number client.maxRetryAfter),
    ("open", .bool client.isOpen)]

end ManifestLens
